import MLton.ClosureConvert.LambdaFreeMarks

/-!
# ClosureConvert/LambdaFreeExact — the free variables are exactly those bound outside

Going through a part of a function puts the variables that occur there and are not bound there into the
list of its scope, each one once; the scopes inside, which are left again, contribute what is free in them.
In a program where every variable occurs where it is bound, and is bound once, these are the variables
bound outside.
-/

namespace MLton.LambdaFree

open Sxml

variable {c c' c'' : Config} {st : State} {x y : Var} {Γ occ occ' lo lo' B B' : List Var}

/-! ## The functions of a program -/

/-- A lambda expression, or functions that are declared together. -/
inductive Owner where
  | lambda (l : Lambda)
  | group (ds : List FunDec)

/-- The variables that occur in them. -/
def Owner.occurs : Owner → List Var
  | .lambda l => l.occurs
  | .group ds => occursFuns ds

/-- **What is recorded of functions**: the variables that occur in them and are not bound in them, each
once; functions that are declared together share this list, and each has those of their names that occur
in its own body, each once. -/
def Owner.Exact (info : Var → LambdaInfo) : Owner → Prop
  | .lambda l =>
    (info l.arg).frees.Nodup ∧ ∀ x, x ∈ (info l.arg).frees ↔ x ∈ l.occurs ∧ x ∉ l.binders
  | .group ds => ∃ xs : List Var, xs.Nodup ∧
    (∀ x, x ∈ xs ↔ x ∈ occursFuns ds ∧ x ∉ ds.map FunDec.var ++ bindersFuns ds) ∧
    ∀ d ∈ ds, (info d.lambda.arg).frees = xs ∧ (info d.lambda.arg).recs.Nodup ∧
      ∀ x, x ∈ (info d.lambda.arg).recs ↔ x ∈ d.lambda.occurs ∧ x ∈ ds.map FunDec.var

mutual

/-- The functions in an expression. -/
def Exp.owners : Exp → List Owner
  | .mk ds _ => ownersDecs ds

def ownersDecs : List Dec → List Owner
  | [] => []
  | d :: ds => Dec.owners d ++ ownersDecs ds

def Dec.owners : Dec → List Owner
  | .exception => []
  | .monoVal _ e => PrimExp.owners e
  | .polyVal _ e => Exp.owners e
  | .funs ds => .group ds :: ownersFuns ds

def ownersFuns : List FunDec → List Owner
  | [] => []
  | d :: ds => FunDec.owners d ++ ownersFuns ds

def FunDec.owners : FunDec → List Owner
  | .mk _ l => Lambda.owners l

def PrimExp.owners : PrimExp → List Owner
  | .case _ cases default => ownersDefault default ++ ownersCases cases
  | .handle tryy _ handler => Exp.owners tryy ++ Exp.owners handler
  | .lambda l => .lambda l :: Lambda.owners l
  | _ => []

def ownersDefault : Option Exp → List Owner
  | none => []
  | some e => Exp.owners e

def ownersCases : List Case → List Owner
  | [] => []
  | c :: cs => Case.owners c ++ ownersCases cs

def Case.owners : Case → List Owner
  | .mk _ e => Exp.owners e

/-- Those inside of the lambda. -/
def Lambda.owners : Lambda → List Owner
  | .mk _ body => Exp.owners body

end

/-! ## What is recorded -/

/-- It holds whatever is recorded elsewhere. -/
def Local (B : List Var) (P : (Var → LambdaInfo) → Prop) (info : Var → LambdaInfo) : Prop :=
  ∀ info' : Var → LambdaInfo, (∀ y ∈ B, info' y = info y) → P info'

/-- **What is recorded** for the functions whose arguments are in `B`. -/
structure Settles (B : List Var) (P : (Var → LambdaInfo) → Prop) (info info' : Var → LambdaInfo) : Prop where
  settled : Local B P info'
  elsewhere : ∀ y, y ∉ B → info' y = info y

namespace Settles

variable {P P' : (Var → LambdaInfo) → Prop} {info info' info'' : Var → LambdaInfo}

theorem none (h : info' = info) (hP : ∀ i, P i) : Settles B P info info' :=
  ⟨fun i _ => hP i, fun y _ => congrFun h y⟩

theorem trans (h : Settles B P info info') (h' : Settles B' P' info' info'') (hB : ∀ x ∈ B, x ∉ B') :
    Settles (B ++ B') (fun i => P i ∧ P' i) info info'' := by
  refine ⟨fun i hi => ⟨h.settled i fun y hy => ?_, h'.settled i fun y hy => ?_⟩, fun y hy => ?_⟩
  · rw [hi y (List.mem_append_left _ hy), h'.elsewhere y (hB y hy)]
  · exact hi y (List.mem_append_right _ hy)
  · rw [List.mem_append, not_or] at hy
    rw [h'.elsewhere y hy.2, h.elsewhere y hy.1]

theorem congr (h : Settles B P info info') (hB : ∀ x ∈ B, x ∈ B') (hP : ∀ i, P i → P' i) :
    Settles B' P' info info' :=
  ⟨fun i hi => hP i (h.settled i fun y hy => hi y (hB y hy)),
    fun y hy => h.elsewhere y fun hmem => hy (hB y hmem)⟩

end Settles

/-- All of them are exact. -/
def AllExact (os : List Owner) (info : Var → LambdaInfo) : Prop := ∀ o ∈ os, o.Exact info

theorem allExact_append {os os' : List Owner} {info : Var → LambdaInfo} :
    AllExact (os ++ os') info ↔ AllExact os info ∧ AllExact os' info := by
  simp only [AllExact, List.forall_mem_append]

/-! ## One part after the other -/

/-- What is bound is bound once, and not outside. -/
def Unique (Γ B : List Var) : Prop := (∀ x ∈ Γ, x ∉ B) ∧ B.Nodup

theorem Unique.nil : Unique Γ [] := ⟨fun _ _ => List.not_mem_nil, List.nodup_nil⟩

theorem Unique.left (h : Unique Γ (B ++ B')) : Unique Γ B :=
  ⟨fun x hx hB => h.1 x hx (List.mem_append_left _ hB), (List.nodup_append'.mp h.2).1⟩

theorem Unique.disjoint (h : Unique Γ (B ++ B')) : ∀ x ∈ B, x ∉ B' :=
  fun _ hx hx' => (List.nodup_append'.mp h.2).2.2 hx hx'

/-- What the first part binds may be outside of the second. -/
theorem Unique.right (h : Unique Γ (B ++ B')) (hlo : ∀ x ∈ lo, x ∈ B) : Unique (lo ++ Γ) B' := by
  refine ⟨fun x hx hB' => ?_, (List.nodup_append'.mp h.2).2.1⟩
  rcases List.mem_append.mp hx with hx | hx
  · exact h.disjoint x (hlo x hx) hB'
  · exact h.1 x hx (List.mem_append_right _ hB')

theorem Unique.rest (h : Unique Γ (B ++ B')) : Unique Γ B' :=
  have hnil : ∀ x ∈ ([] : List Var), x ∈ B := fun _ hx => absurd hx List.not_mem_nil
  h.right hnil

/-- **Going through a part of a scope** in which `occ` occur and `B` are bound, `lo` for what follows. -/
structure Sees (Γ occ lo B : List Var) (os : List Owner) (f : Config → Config) : Prop where
  occurs : ∀ x ∈ occ, x ∈ Γ ∨ x ∈ B
  owners : ∀ o ∈ os, ∀ x ∈ o.occurs, x ∈ Γ ∨ x ∈ B
  lo_sub : ∀ x ∈ lo, x ∈ B
  tidy : ∀ {c : Config}, c.Known → Tidy c (f c)
  marks : ∀ {c : Config}, c.Known → Marks (fun x => x ∈ occ ∧ x ∉ B) lo B c (f c)
  settles : ∀ {c : Config}, c.Known →
    Settles B (AllExact os) c.state.lambdaInfo (f c).state.lambdaInfo

namespace Sees

variable {os os' : List Owner} {f g : Config → Config}

/-- **One part after the other.** -/
theorem comp (h : Unique Γ (B ++ B')) (hf : Sees Γ occ lo B os f) (hg : Sees (lo ++ Γ) occ' lo' B' os' g) :
    Sees Γ (occ ++ occ') (lo ++ lo') (B ++ B') (os ++ os') (fun c => g (f c)) := by
  have hrest : ∀ x, x ∈ lo ++ Γ ∨ x ∈ B' → x ∈ Γ ∨ x ∈ B ++ B' := by
    rintro x (hx | hx)
    · exact (List.mem_append.mp hx).elim (fun hx => .inr (List.mem_append_left _ (hf.lo_sub x hx))) .inl
    · exact .inr (List.mem_append_right _ hx)
  refine ⟨fun x hx => ?_, fun o ho x hx => ?_, fun x hx => ?_, fun hc => ?_, fun hc => ?_, fun hc => ?_⟩
  · rcases List.mem_append.mp hx with hx | hx
    · exact (hf.occurs x hx).imp_right (List.mem_append_left _)
    · exact hrest x (hg.occurs x hx)
  · rcases List.mem_append.mp ho with ho | ho
    · exact (hf.owners o ho x hx).imp_right (List.mem_append_left _)
    · exact hrest x (hg.owners o ho x hx)
  · exact List.mem_append.mpr ((List.mem_append.mp hx).imp (hf.lo_sub x) (hg.lo_sub x))
  · exact (hf.tidy hc).trans (hg.tidy (hf.tidy hc).known)
  · -- What occurs in the second part is bound for it, or not bound in the first.
    have hsecond : ∀ x ∈ occ', x ∉ B' → x ∈ lo ∨ x ∉ B := by
      intro x hx hB'
      refine (List.mem_append.mp ((hg.occurs x hx).resolve_right hB')).imp_right fun hΓ hB => ?_
      exact h.1 x hΓ (List.mem_append_left _ hB)
    refine ((hf.marks hc).trans (hg.marks (hf.tidy hc).known) (fun x hx => hsecond x hx.1 hx.2)
      hf.lo_sub).congr (fun x => ?_) (fun _ h => h) fun _ h => h
    simp only [List.mem_append, not_or]
    constructor
    · rintro (⟨hx, hB⟩ | ⟨⟨hx, hB'⟩, hlo⟩)
      · refine ⟨.inl hx, hB, fun hB' => ?_⟩
        rcases hf.occurs x hx with hΓ | hx
        · exact h.1 x hΓ (List.mem_append_right _ hB')
        · exact hB hx
      · exact ⟨.inr hx, (hsecond x hx hB').resolve_left hlo, hB'⟩
    · rintro ⟨hx | hx, hB, hB'⟩
      · exact .inl ⟨hx, hB⟩
      · exact .inr ⟨⟨hx, hB'⟩, fun hlo => hB (hf.lo_sub x hlo)⟩
  · exact ((hf.settles hc).trans (hg.settles (hf.tidy hc).known) h.disjoint).congr (fun _ h => h)
      fun _ => allExact_append.mpr

/-- Less may be bound for what follows. -/
theorem forget (h : Sees Γ occ lo B os f) : Sees Γ occ [] B os f :=
  ⟨h.occurs, h.owners, fun _ hx => absurd hx List.not_mem_nil, h.tidy,
    fun hc => (h.marks hc).congr (fun _ => Iff.rfl) (fun _ hx => absurd hx List.not_mem_nil) fun _ h => h,
    h.settles⟩

end Sees

theorem sees_id : Sees Γ [] [] [] [] id := by
  refine ⟨by simp, by simp, by simp, .refl, fun _ => ?_, fun _ => .none rfl fun _ => by simp [AllExact]⟩
  exact (Marks.none rfl fun _ => Iff.rfl).congr (by simp) (by simp) (by simp)

theorem lambdaInfo_var : (var x c).state.lambdaInfo = c.state.lambdaInfo := by
  rw [var, get]
  split
  next c' heq =>
    obtain rfl : statusRef x c = c' := congrArg Prod.snd heq
    simp
  next heq =>
    exact (congrArg (fun r => r.2.state.lambdaInfo) heq).symm.trans lambdaInfo_statusRef

theorem lambdaInfo_vars : ∀ (xs : List Var) (c : Config),
    (vars xs c).state.lambdaInfo = c.state.lambdaInfo
  | [], _ => rfl
  | x :: xs, c => (lambdaInfo_vars xs (var x c)).trans lambdaInfo_var

theorem sees_vars {xs : List Var} (h : ∀ x ∈ xs, x ∈ Γ) : Sees Γ xs [] [] [] (vars xs) :=
  ⟨fun x hx => .inl (h x hx), by simp, by simp, tidy_vars, fun _ => marks_vars.congr (by simp) (by simp) (by simp),
    fun _ => .none (lambdaInfo_vars ..) fun _ => by simp [AllExact]⟩

theorem sees_var (h : x ∈ Γ) : Sees Γ [x] [] [] [] (var x) :=
  sees_vars fun _ hy => List.mem_singleton.mp hy ▸ h

theorem sees_bind : Sees Γ [] [x] [x] [] (bind x) :=
  ⟨by simp, by simp, fun _ h => h, tidy_bind, fun _ => marks_bind.congr (by simp) (fun _ h => h) fun _ h => h,
    fun _ => .none lambdaInfo_set fun _ => by simp [AllExact]⟩

theorem sees_binds {arg : Option Var} :
    Sees Γ [] arg.toList arg.toList [] (fun c => arg.toList.foldl (fun c x => bind x c) c) := by
  cases arg with
  | none => exact sees_id
  | some x => exact sees_bind

/-! ## Scopes inside -/

theorem unseen_enter (h : st.Known) : st.enter.Unseen x :=
  unseen_iff.mpr fun heq => absurd heq.symm (h.frees_lt x).ne

/-- Other references may have changed before. -/
theorem Marks.restate {O : Var → Prop} (st : State) (h : Marks O lo B { c with state := st } c')
    (hinfo : st.varInfo = c.state.varInfo) : Marks O lo B c c' := by
  have hunseen : ∀ x, ({ c with state := st } : Config).Unseen x ↔ c.Unseen x :=
    fun _ => unseen_congr rfl hinfo
  obtain ⟨new, hnew, hnodup, hmem⟩ := h.frees
  exact ⟨⟨new, hnew, hnodup, fun x => (hmem x).trans (and_congr_right' (hunseen x))⟩,
    fun x hx => (hunseen x).mp (h.mono x hx), h.bound,
    fun x hx => (h.unseen x hx).trans (and_congr_left' (hunseen x))⟩

/-- Other references may change afterwards. -/
theorem Marks.after {O : Var → Prop} (h : Marks O lo B c c') (hinfo : st.varInfo = c'.state.varInfo) :
    Marks O lo B c { c' with state := st } := by
  have hunseen : ∀ x, ({ c' with state := st } : Config).Unseen x ↔ c'.Unseen x :=
    fun _ => unseen_congr rfl hinfo
  exact ⟨h.frees, fun x hx => h.mono x ((hunseen x).mp hx), fun x hx => mt (hunseen x).mp (h.bound x hx),
    fun x hx => (hunseen x).trans (h.unseen x hx)⟩

/-- **What a new scope returns.** -/
theorem mem_newScope {O : Var → Prop} {th : Config → Config} (h : st.Known)
    (hmarks : Marks O lo B st.enter (th st.enter)) :
    (newScope th st).1.Nodup ∧ ∀ x, x ∈ (newScope th st).1 ↔ O x := by
  obtain ⟨new, hnew, hnodup, hmem⟩ := hmarks.frees
  obtain rfl : (newScope th st).1 = new := hnew.trans (List.append_nil new)
  exact ⟨hnodup, fun x => (hmem x).trans (and_iff_left (unseen_enter h))⟩

/-- `keepRecs` keeps some and sees the others. -/
theorem keepRecs_eq {isBound : Var → Bool} : ∀ {xs : List Var} {c : Config},
    keepRecs isBound xs c = (xs.filter isBound, vars (xs.filter fun x => !isBound x) c)
  | [], _ => rfl
  | x :: xs, c => by
      rw [keepRecs]
      cases hx : isBound x
      · rw [if_neg Bool.false_ne_true, keepRecs_eq, List.filter_cons_of_neg (by simp [hx]),
          List.filter_cons_of_pos (by simp [hx])]
        rfl
      · rw [if_pos rfl, keepRecs_eq, List.filter_cons_of_pos hx, List.filter_cons_of_neg (by simp [hx])]

/-- **What a lambda returns and records.** -/
structure SeesLambda (Γ : List Var) (l : Lambda) : Prop where
  occurs : ∀ x ∈ l.occurs, x ∈ Γ ∨ x ∈ l.binders
  owners : ∀ o ∈ Lambda.owners l, ∀ x ∈ o.occurs, x ∈ Γ ∨ x ∈ l.binders
  nodup : ∀ {st : State}, st.Known → (lambda l st).1.Nodup
  mem : ∀ {st : State}, st.Known → ∀ x, x ∈ (lambda l st).1 ↔ x ∈ l.occurs ∧ x ∉ l.binders
  settles : ∀ {st : State}, st.Known →
    Settles l.body.binders (AllExact (Lambda.owners l)) st.lambdaInfo (lambda l st).2.lambdaInfo

theorem Lambda.binders_eq : ∀ {l : Lambda}, l.binders = l.arg :: l.body.binders
  | .mk _ _ => rfl

/-- What is known of the functions of a group before they get their free variables. -/
def Recorded (names : List Var) (ds : List FunDec) (info : Var → LambdaInfo) : Prop :=
  ∀ d ∈ ds, Local d.lambda.body.binders (AllExact (Lambda.owners d.lambda)) info ∧
    (info d.lambda.arg).recs.Nodup ∧
    ∀ x, x ∈ (info d.lambda.arg).recs ↔ x ∈ d.lambda.occurs ∧ x ∈ names

/-- **Going through functions in the scope of their group.** -/
structure SeesFuns (names Γ occ B : List Var) (ds : List FunDec) (f : Config → Config) : Prop where
  occurs : ∀ x ∈ occ, x ∈ names ++ Γ ∨ x ∈ B
  owners : ∀ o ∈ ownersFuns ds, ∀ x ∈ o.occurs, x ∈ names ++ Γ ∨ x ∈ B
  tidy : ∀ {c : Config}, c.Known → Tidy c (f c)
  marks : ∀ {c : Config}, c.Known → Marks (fun x => (x ∈ occ ∧ x ∉ B) ∧ x ∉ names) [] B c (f c)
  settles : ∀ {c : Config}, c.Known →
    Settles B (Recorded names ds) c.state.lambdaInfo (f c).state.lambdaInfo

theorem ownersFuns_append : ∀ {ds ds' : List FunDec}, ownersFuns (ds ++ ds') = ownersFuns ds ++ ownersFuns ds'
  | [], _ => rfl
  | d :: ds, ds' => by rw [List.cons_append, ownersFuns, ownersFuns, ownersFuns_append, List.append_assoc]

theorem SeesFuns.comp {names : List Var} {ds ds' : List FunDec} {f g : Config → Config}
    (h : Unique (names ++ Γ) (B ++ B')) (hf : SeesFuns names Γ occ B ds f)
    (hg : SeesFuns names Γ occ' B' ds' g) :
    SeesFuns names Γ (occ ++ occ') (B ++ B') (ds ++ ds') (fun c => g (f c)) := by
  have hfirst : ∀ x ∈ occ, x ∉ B → x ∉ B' := fun x hx hB hB' =>
    h.1 x ((hf.occurs x hx).resolve_right hB) (List.mem_append_right _ hB')
  have hsecond : ∀ x ∈ occ', x ∉ B' → x ∉ B := fun x hx hB' hB =>
    h.1 x ((hg.occurs x hx).resolve_right hB') (List.mem_append_left _ hB)
  refine ⟨fun x hx => ?_, fun o ho x hx => ?_, fun hc => (hf.tidy hc).trans (hg.tidy (hf.tidy hc).known),
    fun hc => ?_, fun hc => ?_⟩
  · rcases List.mem_append.mp hx with hx | hx
    · exact (hf.occurs x hx).imp_right (List.mem_append_left _)
    · exact (hg.occurs x hx).imp_right (List.mem_append_right _)
  · rcases List.mem_append.mp (ownersFuns_append ▸ ho) with ho | ho
    · exact (hf.owners o ho x hx).imp_right (List.mem_append_left _)
    · exact (hg.owners o ho x hx).imp_right (List.mem_append_right _)
  · refine ((hf.marks hc).trans (hg.marks (hf.tidy hc).known)
      (fun x hx => .inr (hsecond x hx.1.1 hx.1.2)) fun _ h => absurd h List.not_mem_nil).congr
      (fun x => ?_) (fun _ h => h) fun _ h => h
    simp only [List.mem_append, not_or]
    constructor
    · rintro (⟨⟨hx, hB⟩, hnames⟩ | ⟨⟨⟨hx, hB'⟩, hnames⟩, -⟩)
      · exact ⟨⟨.inl hx, hB, hfirst x hx hB⟩, hnames⟩
      · exact ⟨⟨.inr hx, hsecond x hx hB', hB'⟩, hnames⟩
    · rintro ⟨⟨hx | hx, hB, hB'⟩, hnames⟩
      · exact .inl ⟨⟨hx, hB⟩, hnames⟩
      · exact .inr ⟨⟨⟨hx, hB'⟩, hnames⟩, List.not_mem_nil⟩
  · refine ((hf.settles hc).trans (hg.settles (hf.tidy hc).known) h.disjoint).congr (fun _ h => h)
      fun i hi d hd => ?_
    rcases List.mem_append.mp hd with hd | hd
    · exact hi.1 d hd
    · exact hi.2 d hd

/-- The names of a group are bound, and nothing else happens in the scope. -/
theorem marks_setFrees {xs : List Var} : ∀ (ds : List FunDec) {c : Config},
    Marks (fun _ => False) (ds.map FunDec.var) (ds.map FunDec.var) c (setFrees xs ds c)
  | [], _ => .none rfl fun _ => Iff.rfl
  | .mk x l :: ds, c => by
      have hbind : Marks (fun _ => False) [x] [x] c (bind x { c with state := setFree l xs c.state }) :=
        Marks.restate (setFree l xs c.state) marks_bind rfl
      refine (hbind.trans (marks_setFrees ds) (fun _ h => h.elim) fun _ h => h).congr
        (fun _ => by simp) (fun _ h => h) fun _ h => h

/-- **Each function of a group gets the same free variables.** -/
theorem lambdaInfo_setFrees {xs : List Var} : ∀ {ds : List FunDec} {c : Config} {y : Var},
    (setFrees xs ds c).state.lambdaInfo y =
      if y ∈ ds.map (·.lambda.arg) then { c.state.lambdaInfo y with frees := xs }
      else c.state.lambdaInfo y
  | [], _, _ => rfl
  | .mk x l :: ds, c, y => by
      rw [setFrees, lambdaInfo_setFrees, bind, lambdaInfo_set, setFree]
      simp only [List.map_cons, FunDec.lambda, List.mem_cons]
      by_cases hy : y = l.arg
      · subst hy
        simp
      · simp [hy]

theorem mem_bindersFuns : ∀ {ds : List FunDec}, ∀ d ∈ ds, ∀ y ∈ d.lambda.binders, y ∈ bindersFuns ds
  | .mk _ _ :: _, d, hd, y, hy => by
      rcases List.mem_cons.mp hd with rfl | hd
      · exact List.mem_append_left _ hy
      · exact List.mem_append_right _ (mem_bindersFuns d hd y hy)

theorem exists_of_mem_ownersFuns {o : Owner} : ∀ {ds : List FunDec}, o ∈ ownersFuns ds →
    ∃ d ∈ ds, o ∈ Lambda.owners d.lambda
  | .mk x l :: ds, h => by
      rcases List.mem_append.mp h with h | h
      · exact ⟨.mk x l, List.mem_cons_self, h⟩
      · obtain ⟨d, hd, ho⟩ := exists_of_mem_ownersFuns h
        exact ⟨d, List.mem_cons_of_mem _ hd, ho⟩

theorem arg_mem_binders {l : Lambda} : l.arg ∈ l.binders := by
  rw [Lambda.binders_eq]
  exact List.mem_cons_self

theorem body_binders_sub {l : Lambda} : ∀ y ∈ l.body.binders, y ∈ l.binders := by
  intro y hy
  rw [Lambda.binders_eq]
  exact List.mem_cons_of_mem _ hy

/-- The argument of a function is not bound in the others. -/
theorem arg_not_mem : ∀ {ds : List FunDec}, (bindersFuns ds).Nodup →
    ∀ d ∈ ds, ∀ y ∈ ds.map (·.lambda.arg), y ∉ d.lambda.body.binders
  | .mk x l :: ds, h, d, hd, y, hy => by
      have hsplit : (l.binders ++ bindersFuns ds).Nodup := h
      obtain ⟨hl, hds, hdisj⟩ := List.nodup_append'.mp hsplit
      rw [Lambda.binders_eq, List.nodup_cons] at hl
      rcases List.mem_cons.mp hd with rfl | hd
      · rcases List.mem_cons.mp hy with rfl | hy
        · exact hl.1
        · obtain ⟨d', hd', rfl⟩ := List.mem_map.mp hy
          exact fun hin => hdisj (body_binders_sub _ hin) (mem_bindersFuns d' hd' _ arg_mem_binders)
      · rcases List.mem_cons.mp hy with rfl | hy
        · exact fun hin => hdisj arg_mem_binders (mem_bindersFuns d hd _ (body_binders_sub _ hin))
        · exact arg_not_mem hds d hd y hy

/-! ## The traversal -/

/-- A lambda, by what its body does. -/
theorem seesLambda_mk {arg : Var} {body : Exp} (hu : Unique Γ ([arg] ++ body.binders))
    (hbody : Sees ([arg] ++ Γ) body.occurs [] body.binders (Exp.owners body) (exp body)) :
    SeesLambda Γ (.mk arg body) := by
  have hsees := sees_bind.comp hu hbody
  refine ⟨hsees.occurs, hsees.owners, fun hst => ?_, fun hst => ?_, fun {st} hst => ?_⟩
  · exact (mem_newScope hst (hsees.marks (known_enter hst))).1
  · exact (mem_newScope hst (hsees.marks (known_enter hst))).2
  · have hsettles := hbody.settles (tidy_bind (x := arg) (known_enter hst)).known
    rwa [bind, lambdaInfo_set] at hsettles

/-- A lambda expression, by what the lambda does. -/
theorem sees_lambdaExp {l : Lambda} (hu : Unique Γ l.binders) (hl : SeesLambda Γ l) :
    Sees Γ l.occurs [] l.binders (.lambda l :: Lambda.owners l) (primExp (.lambda l)) := by
  have harg : l.arg ∉ l.body.binders := by
    have hnodup := hu.2
    rw [Lambda.binders_eq, List.nodup_cons] at hnodup
    exact hnodup.1
  refine ⟨hl.occurs, fun o ho => ?_, by simp, tidy_primExp _, fun {c} hc => ?_, fun {c} hc => ?_⟩
  · rcases List.mem_cons.mp ho with rfl | ho
    · exact hl.occurs
    · exact hl.owners o ho
  · rw [primExp]
    refine Marks.restate _ (marks_vars.congr (hl.mem hc.state) (fun _ h => h)
      fun _ h => absurd h List.not_mem_nil) (restored_lambda l hc.state).varInfo
  · have hsettles := hl.settles hc.state
    rw [primExp]
    dsimp only
    rw [lambdaInfo_vars]
    dsimp only [setFree]
    refine ⟨fun i hi o ho => ?_, fun y hy => ?_⟩
    · rcases List.mem_cons.mp ho with rfl | ho
      · rw [Owner.Exact, hi l.arg arg_mem_binders, Function.update_self]
        exact ⟨hl.nodup hc.state, hl.mem hc.state⟩
      · refine hsettles.settled i (fun y hy => ?_) o ho
        have hne : y ≠ l.arg := by
          rintro rfl
          exact harg hy
        rw [hi y (body_binders_sub y hy), Function.update_of_ne hne]
    · rw [Lambda.binders_eq, List.mem_cons, not_or] at hy
      rw [Function.update_of_ne hy.1, hsettles.elsewhere y hy.2]

/-- A function of a group, by what its lambda does. -/
theorem seesFuns_mk {names : List Var} {x : Var} {l : Lambda} (hu : Unique (names ++ Γ) l.binders)
    (hl : SeesLambda (names ++ Γ) l) :
    SeesFuns names Γ l.occurs l.binders [.mk x l]
      (funDec (fun x => decide (x ∈ names)) (.mk x l)) := by
  refine ⟨hl.occurs, fun o ho => hl.owners o (List.append_nil (Lambda.owners l) ▸ ho), tidy_funDec _ _,
    fun hc => ?_, fun {c} hc => ?_⟩
  · rw [funDec]
    dsimp only
    rw [keepRecs_eq]
    refine Marks.after (Marks.restate (lambda l _).2 (marks_vars.congr (fun y => ?_)
      (fun _ h => h) fun _ h => absurd h List.not_mem_nil) (restored_lambda l hc.state).varInfo) rfl
    rw [List.mem_filter, hl.mem hc.state]
    simp
  · have harg : l.arg ∉ l.body.binders := by
      have hnodup := hu.2
      rw [Lambda.binders_eq, List.nodup_cons] at hnodup
      exact hnodup.1
    have hinfo : (funDec (fun x => decide (x ∈ names)) (.mk x l) c).state.lambdaInfo =
        Function.update (lambda l c.state).2.lambdaInfo l.arg
          { (lambda l c.state).2.lambdaInfo l.arg with
            recs := (lambda l c.state).1.filter fun x => decide (x ∈ names) } := by
      rw [funDec]
      dsimp only
      rw [keepRecs_eq]
      simp only [setRec, lambdaInfo_vars]
    rw [hinfo]
    refine ⟨fun i hi d hd => ?_, fun y hy => ?_⟩
    · obtain rfl := List.mem_singleton.mp hd
      refine ⟨fun i' hi' => (hl.settles hc.state).settled i' fun y hy => ?_, ?_⟩
      · have hy' : y ∈ l.binders := by
          rw [Lambda.binders_eq]
          exact List.mem_cons_of_mem _ hy
        have hne : y ≠ l.arg := by
          rintro rfl
          exact harg hy
        rw [hi' y hy, hi y hy', Function.update_of_ne hne]
      · have hrecs : (i l.arg).recs = (lambda l c.state).1.filter fun x => decide (x ∈ names) := by
          rw [hi l.arg arg_mem_binders, Function.update_self]
        rw [show (FunDec.mk x l).lambda.arg = l.arg from rfl, hrecs]
        refine ⟨(hl.nodup hc.state).filter _, fun y => ?_⟩
        rw [List.mem_filter, hl.mem hc.state, decide_eq_true_iff, and_assoc]
        exact and_congr_right' (and_iff_right_of_imp fun hy => hu.1 y (List.mem_append_left _ hy))
    · rw [Lambda.binders_eq, List.mem_cons, not_or] at hy
      rw [Function.update_of_ne hy.1, (hl.settles hc.state).elsewhere y hy.2]

theorem dec_funs {ds : List FunDec} : dec (.funs ds) c =
    (let r := newScope (funs (fun x => decide (x ∈ ds.map FunDec.var)) ds) c.state
    vars r.1 (setFrees r.1 ds { c with state := r.2 })) := by
  rw [dec]

/-- **A group of functions**, when they have been gone through in the group's scope. -/
theorem sees_funs {ds : List FunDec} (h : Unique Γ (ds.map FunDec.var ++ bindersFuns ds))
    (hfuns : SeesFuns (ds.map FunDec.var) Γ (occursFuns ds) (bindersFuns ds) ds
      (funs (fun x => decide (x ∈ ds.map FunDec.var)) ds)) :
    Sees Γ (occursFuns ds) (ds.map FunDec.var) (ds.map FunDec.var ++ bindersFuns ds)
      (.group ds :: ownersFuns ds) (dec (.funs ds)) := by
  have hnodup : (bindersFuns ds).Nodup := (List.nodup_append'.mp h.2).2.1
  have hin : ∀ x, x ∈ ds.map FunDec.var ++ Γ ∨ x ∈ bindersFuns ds →
      x ∈ Γ ∨ x ∈ ds.map FunDec.var ++ bindersFuns ds := by
    rintro x (hx | hx)
    · exact (List.mem_append.mp hx).elim (fun hx => .inr (List.mem_append_left _ hx)) .inl
    · exact .inr (List.mem_append_right _ hx)
  refine ⟨fun x hx => hin x (hfuns.occurs x hx), fun o ho x hx => ?_, fun x hx => List.mem_append_left _ hx,
    tidy_dec _, fun {c} hc => ?_, fun {c} hc => ?_⟩
  · rcases List.mem_cons.mp ho with rfl | ho
    · exact hin x (hfuns.occurs x hx)
    · exact hin x (hfuns.owners o ho x hx)
  · obtain ⟨-, hmem⟩ := mem_newScope hc.state (hfuns.marks (known_enter hc.state))
    have hrestored := restored_newScope _ (hfuns.tidy (known_enter hc.state))
    rw [dec_funs]
    generalize newScope (funs (fun x => decide (x ∈ ds.map FunDec.var)) ds) c.state = r at *
    refine Marks.restate _ (((marks_setFrees ds).trans marks_vars
      (fun x _ => Decidable.em _) fun _ h => h).congr (fun x => ?_) (fun x hx => ?_) fun x hx => ?_)
      hrestored.varInfo
    · rw [hmem, List.mem_append, not_or]
      tauto
    · exact List.mem_append_left _ hx
    · exact List.mem_append_left _ (by rwa [List.append_nil] at hx)
  · obtain ⟨hfrees, hmem⟩ := mem_newScope hc.state (hfuns.marks (known_enter hc.state))
    have hsettles : Settles (bindersFuns ds) (Recorded (ds.map FunDec.var) ds) c.state.lambdaInfo
        (newScope (funs (fun x => decide (x ∈ ds.map FunDec.var)) ds) c.state).2.lambdaInfo :=
      hfuns.settles (known_enter hc.state)
    rw [dec_funs]
    generalize newScope (funs (fun x => decide (x ∈ ds.map FunDec.var)) ds) c.state = r at *
    rw [lambdaInfo_vars]
    have hbinders : ∀ d ∈ ds, ∀ y ∈ d.lambda.binders, y ∈ ds.map FunDec.var ++ bindersFuns ds :=
      fun d hd y hy => List.mem_append_right _ (mem_bindersFuns d hd y hy)
    have hrecorded := hsettles.settled r.2.lambdaInfo fun _ _ => rfl
    refine ⟨fun i hi o ho => ?_, fun y hy => ?_⟩
    · rcases List.mem_cons.mp ho with rfl | ho
      · refine ⟨r.1, hfrees, fun x => ?_, fun d hd => ?_⟩
        · rw [hmem, List.mem_append, not_or]
          tauto
        · rw [hi _ (hbinders d hd _ arg_mem_binders), lambdaInfo_setFrees,
            if_pos (List.mem_map.mpr ⟨d, hd, rfl⟩)]
          exact ⟨rfl, (hrecorded d hd).2⟩
      · obtain ⟨d, hd, ho⟩ := exists_of_mem_ownersFuns ho
        refine (hrecorded d hd).1 i (fun y hy => ?_) o ho
        rw [hi y (hbinders d hd y (body_binders_sub y hy)), lambdaInfo_setFrees,
          if_neg fun hin => arg_not_mem hnodup d hd y hin hy]
    · rw [List.mem_append, not_or] at hy
      rw [lambdaInfo_setFrees, if_neg, hsettles.elsewhere y hy.2]
      intro hin
      obtain ⟨d, hd, rfl⟩ := List.mem_map.mp hin
      exact hy.2 (mem_bindersFuns d hd _ arg_mem_binders)

mutual

theorem sees_exp : ∀ (e : Exp) {Γ : List Var}, e.scoped Γ = true → Unique Γ e.binders →
    Sees Γ e.occurs [] e.binders (Exp.owners e) (exp e)
  | .mk ds _, _, hs, hu => sees_decs ds hs hu

theorem sees_decs : ∀ (ds : List Dec) {Γ : List Var} {result : Var}, scopedDecs Γ result ds = true →
    Unique Γ (bindersDecs ds) →
    Sees Γ (occursDecs ds ++ [result]) [] (bindersDecs ds) (ownersDecs ds) (fun c => var result (decs ds c))
  | [], _, _, hs, _ => sees_var (of_decide_eq_true hs)
  | d :: ds, Γ, result, hs, hu => by
      obtain ⟨hd, hds⟩ := Bool.and_eq_true_iff.mp hs
      have hfirst := sees_dec d hd hu.left
      have hrest := sees_decs ds hds (hu.right hfirst.lo_sub)
      have hboth := (hfirst.comp hu hrest).forget
      rwa [← List.append_assoc] at hboth

theorem sees_dec : ∀ (d : Dec) {Γ : List Var}, d.scoped Γ = true → Unique Γ d.binders →
    Sees Γ d.occurs d.bound d.binders (Dec.owners d) (dec d)
  | .exception, _, _, _ => sees_id
  | .monoVal x e, _, hs, hu => by
      have hboth := (sees_primExp e hs hu.left).comp hu sees_bind
      rwa [List.append_nil, List.append_nil] at hboth
  | .polyVal x e, _, hs, hu => by
      have hboth := (sees_exp e hs hu.left).comp hu sees_bind
      rwa [List.append_nil, List.append_nil] at hboth
  | .funs ds, _, hs, hu =>
      sees_funs hu (seesFuns_funs ds hs (hu.right fun _ h => h))

theorem seesFuns_funs {names : List Var} : ∀ (ds : List FunDec) {Γ : List Var},
    scopedFuns (names ++ Γ) ds = true → Unique (names ++ Γ) (bindersFuns ds) →
    SeesFuns names Γ (occursFuns ds) (bindersFuns ds) ds (funs (fun x => decide (x ∈ names)) ds)
  | [], _, _, _ =>
    ⟨fun _ h => absurd h List.not_mem_nil, fun _ h => absurd h List.not_mem_nil, .refl,
      fun _ => (Marks.none rfl fun _ => Iff.rfl).congr (by simp [occursFuns]) (fun _ h => h) fun _ h => h,
      fun _ => .none rfl fun _ _ hd => absurd hd List.not_mem_nil⟩
  | .mk x l :: ds, _, hs, hu => by
      obtain ⟨hl, hds⟩ := Bool.and_eq_true_iff.mp hs
      have hfirst := seesFuns_mk (x := x) (Unique.left hu) (sees_lambda l hl (Unique.left hu))
      exact hfirst.comp hu (seesFuns_funs ds hds hu.rest)

theorem sees_primExp : ∀ (e : PrimExp) {Γ : List Var}, e.scoped Γ = true → Unique Γ e.binders →
    Sees Γ e.occurs [] e.binders (PrimExp.owners e) (primExp e)
  | .app _ _, _, hs, _ => by
      obtain ⟨hfunc, harg⟩ := Bool.and_eq_true_iff.mp hs
      exact (sees_var (of_decide_eq_true hfunc)).comp .nil (sees_var (of_decide_eq_true harg))
  | .case _ cs default, _, hs, hu => by
      obtain ⟨hs, hcs⟩ := Bool.and_eq_true_iff.mp hs
      obtain ⟨htest, hdefault⟩ := Bool.and_eq_true_iff.mp hs
      have hbranches := (sees_defaultExp default hdefault (Unique.left hu)).comp hu
        (sees_cases cs hcs (Unique.rest hu))
      exact (sees_var (of_decide_eq_true htest)).comp (B := []) hu hbranches
  | .conApp arg, _, hs, _ =>
    sees_vars fun x hx => by
      obtain rfl : arg = some x := Option.mem_toList.mp hx
      exact of_decide_eq_true hs
  | .const, _, _, _ => sees_id
  | .handle tryy _ handler, _, hs, hu => by
      obtain ⟨htry, hhandler⟩ := Bool.and_eq_true_iff.mp hs
      have hrest := Unique.rest hu
      have hcatch := sees_bind.comp (B := [_]) hrest
        (sees_exp handler hhandler (hrest.right fun _ h => h))
      exact ((sees_exp tryy htry (Unique.left hu)).comp hu hcatch).forget
  | .lambda l, _, hs, hu => sees_lambdaExp hu (sees_lambda l hs hu)
  | .primApp _, _, hs, _ => sees_vars fun x hx => of_decide_eq_true (List.all_eq_true.mp hs x hx)
  | .profile, _, _, _ => sees_id
  | .raise _, _, hs, _ => sees_var (of_decide_eq_true hs)
  | .select _, _, hs, _ => sees_var (of_decide_eq_true hs)
  | .tuple _, _, hs, _ => sees_vars fun x hx => of_decide_eq_true (List.all_eq_true.mp hs x hx)
  | .var _, _, hs, _ => sees_var (of_decide_eq_true hs)

theorem sees_defaultExp : ∀ (e : Option Exp) {Γ : List Var}, scopedDefault Γ e = true →
    Unique Γ (bindersDefault e) →
    Sees Γ (occursDefault e) [] (bindersDefault e) (ownersDefault e) (defaultExp e)
  | none, _, _, _ => sees_id
  | some e, _, hs, hu => sees_exp e hs hu

theorem sees_cases : ∀ (cs : List Case) {Γ : List Var}, scopedCases Γ cs = true →
    Unique Γ (bindersCases cs) →
    Sees Γ (occursCases cs) [] (bindersCases cs) (ownersCases cs) (cases cs)
  | [], _, _, _ => sees_id
  | cs :: css, _, hs, hu => by
      obtain ⟨hcs, hcss⟩ := Bool.and_eq_true_iff.mp hs
      exact (sees_case cs hcs hu.left).comp hu (sees_cases css hcss hu.rest)

theorem sees_case : ∀ (cs : Case) {Γ : List Var}, cs.scoped Γ = true → Unique Γ cs.binders →
    Sees Γ cs.occurs [] cs.binders (Case.owners cs) (case cs)
  | .mk _ e, _, hs, hu =>
    (sees_binds.comp hu (sees_exp e hs (hu.right fun _ h => h))).forget

theorem sees_lambda : ∀ (l : Lambda) {Γ : List Var}, l.scoped Γ = true → Unique Γ l.binders →
    SeesLambda Γ l
  | .mk _ body, _, hs, hu =>
    seesLambda_mk hu (sees_exp body hs (Unique.right (B := [_]) hu fun _ h => h))

end

/-- **The pass is exact.**  In a program where every variable occurs where it is bound and is bound once,
what is recorded of functions is what occurs in them and is bound in the program, but not in them, each
once; the status of every variable is put back at the end of the program, of every lambda and of every
group. -/
theorem lambdaFree_exact {body : Exp} (hs : body.scoped [] = true) (hu : body.binders.Nodup)
    (hst : st.Known) :
    ∃ st', lambdaFree body st = some st' ∧
      (∀ o ∈ Exp.owners body, o.Exact st'.lambdaInfo ∧ ∀ x ∈ o.occurs, x ∈ body.binders) ∧
      st'.varInfo = st.varInfo ∧
      (∀ (l : Lambda) (st : State), st.Known → (lambda l st).2.varInfo = st.varInfo) ∧
      ∀ (isBound : Var → Bool) (ds : List FunDec) (st : State), st.Known →
        (newScope (funs isBound ds) st).2.varInfo = st.varInfo := by
  have hsees := sees_exp body hs ⟨fun _ h => absurd h List.not_mem_nil, hu⟩
  have hnone : (newScope (exp body) st).1 = [] := by
    refine List.eq_nil_iff_forall_not_mem.mpr fun x hx => ?_
    obtain ⟨hocc, hnot⟩ := ((mem_newScope hst (hsees.marks (known_enter hst))).2 x).mp hx
    exact (hsees.occurs x hocc).elim List.not_mem_nil hnot
  have hrestored := restored_newScope _ (hsees.tidy (known_enter hst))
  refine ⟨(newScope (exp body) st).2, ?_, fun o ho => ⟨?_, fun x hx => ?_⟩, hrestored.varInfo,
    fun l st h => (restored_lambda l h).varInfo,
    fun isBound ds st h => (restored_newScope _ (tidy_funs isBound ds (known_enter h))).varInfo⟩
  · rw [lambdaFree]
    exact if_pos hnone
  · exact (hsees.settles (known_enter hst)).settled _ (fun _ _ => rfl) o ho
  · exact (hsees.owners o ho x hx).resolve_left List.not_mem_nil

/-- Two functions that call each other: `f` uses `y`, and `g` uses `w`. -/
def twoFuns : Exp :=
  .mk [.monoVal ⟨0⟩ .const, .monoVal ⟨1⟩ .const,
    .funs [.mk ⟨2⟩ (.mk ⟨3⟩ (.mk [.monoVal ⟨4⟩ (.app ⟨2⟩ ⟨0⟩), .monoVal ⟨5⟩ (.app ⟨6⟩ ⟨3⟩)] ⟨5⟩)),
      .mk ⟨6⟩ (.mk ⟨7⟩ (.mk [.monoVal ⟨8⟩ (.app ⟨2⟩ ⟨1⟩)] ⟨8⟩))]] ⟨2⟩

/-- No variable has been seen by a scope. -/
def State.initial : State := ⟨fun _ => ⟨0, .unseen⟩, fun _ => ⟨[], []⟩, 1⟩

theorem lambdaFree_twoFuns : ∃ st', lambdaFree twoFuns .initial = some st' ∧
    (∀ o ∈ Exp.owners twoFuns, o.Exact st'.lambdaInfo ∧ ∀ x ∈ o.occurs, x ∈ twoFuns.binders) ∧
    st'.varInfo = State.initial.varInfo ∧
    (∀ (l : Lambda) (st : State), st.Known → (lambda l st).2.varInfo = st.varInfo) ∧
    ∀ (isBound : Var → Bool) (ds : List FunDec) (st : State), st.Known →
      (newScope (funs isBound ds) st).2.varInfo = st.varInfo :=
  lambdaFree_exact (by decide) (by decide) ⟨fun _ => Nat.one_pos⟩

/-- Both functions have the free variables `y` and `w`; `f` calls both and `g` calls `f`. -/
example : (lambdaFree twoFuns .initial).map (fun st => [st.lambdaInfo ⟨3⟩, st.lambdaInfo ⟨7⟩]) =
    some [⟨[⟨1⟩, ⟨0⟩], [⟨6⟩, ⟨2⟩]⟩, ⟨[⟨1⟩, ⟨0⟩], [⟨2⟩]⟩] := by decide

end MLton.LambdaFree
