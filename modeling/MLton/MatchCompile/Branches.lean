import MLton.Lib.Meets
import MLton.Machinery.Fold
import MLton.MatchCompile.Columns
import MLton.MatchCompile.Unhandled

/-!
# MatchCompile/Branches — one call of the compiler, given the calls below it

A branch of a test is a recursive call for other rows; it returns unless those mix, and gives what the
first rule that matches gives for the values that get there.  A column that asks for nothing and a column
of constants are put together from their branches.
-/

namespace MLton.MatchCompile

variable {β : Type}

/-! ## What the expression is to give -/

/-- What an action gives: the values of the names it was compiled with. -/
def runAction {ρ : Type} (run : β → (Var → Option Value) → ρ) (a : Action β) (σ : Env) : ρ :=
  run a.1 fun x => (a.2 x).bind σ

/-- What the first rule that matches gives. -/
def firstMatch {ρ : Type} (run : β → (Var → Option Value) → ρ) (μ : ℕ → Value) (v₀ : Value)
    (rules : List (Rule β)) : Option ρ :=
  rules.findSome? fun r => (r.nestedPat.bind μ v₀).map fun b => run r.action fun x => List.lookup x b

section Spec

variable (D : Datatypes) (seqIndex : ℕ) (test : Var)

/-- What references hold is typed. -/
def Typed (μ : ℕ → Value) (Λ : ℕ → Ty) : Prop := ∀ l, (μ l).HasTy D seqIndex Λ (Λ l)

/-- **The expression is correct**: it runs the first rule that matches. -/
def Correct (Ts : List Ty) (vars : List (Var × Ty)) (rules : List (Rule β)) (facts : Facts)
    (known : Var → Const → Prop) (e : Exp (Action β)) : Prop :=
  ∀ {ρ : Type} (run : β → (Var → Option Value) → ρ) {μ : ℕ → Value} {Λ : ℕ → Ty} {v₀ : Value} {σ : Env},
    Typed D seqIndex μ Λ → Fits D seqIndex μ Λ test v₀ Ts vars facts known σ →
    e.eval seqIndex μ (runAction run) σ = firstMatch run μ v₀ rules

/-- What is proved of the recursive calls. -/
def RecSpec (recur : Rec β) (bound : ℕ) : Prop :=
  ∀ {Ts : List Ty} {vars : List (Var × Ty)} {rules : List (Rule β)} {facts : Facts}
    {known : Var → Const → Prop} {n : ℕ}, Ready D seqIndex test Ts vars rules facts known n →
    size vars rules < bound →
    Meets (recur vars rules facts) n (¬ Mixes D (rules.map Rule.pats))
      (Correct D seqIndex test Ts vars rules facts known)

/-- **A branch is correct** for the values of the first column that get there. -/
def Gives (T : Ty) (Ts : List Ty) (var : Var × Ty) (vars : List (Var × Ty)) (rules : List (Rule β))
    (facts : Facts) (known : Var → Const → Prop) (admits : (ℕ → Value) → Value → Prop)
    (extend : Env → Value → (ℕ → Value) → Env → Prop) (e : Exp (Action β)) : Prop :=
  ∀ {ρ : Type} (run : β → (Var → Option Value) → ρ) {μ : ℕ → Value} {Λ : ℕ → Ty} {v₀ w : Value} {σ σ' : Env},
    Typed D seqIndex μ Λ → Fits D seqIndex μ Λ test v₀ (T :: Ts) (var :: vars) facts known σ →
    σ var.1 = some w → admits μ w → extend σ w μ σ' →
    e.eval seqIndex μ (runAction run) σ' = firstMatch run μ v₀ rules

end Spec

/-! ## Names and optional parts -/

section Monad

variable {γ δ : Type} {n : ℕ} {G : Prop}

theorem newNonames_eq : ∀ (tys : List Ty) (n : ℕ), ∃ xs : List (Var × Ty),
    newNonames tys n = some (xs, n + tys.length) ∧ xs.map Prod.snd = tys ∧
      xs.map Prod.fst = (List.range' n tys.length).map Var.mk
  | [], n => ⟨[], rfl, rfl, rfl⟩
  | ty :: tys, n => by
    obtain ⟨xs, hxs, htys, hnames⟩ := newNonames_eq tys (n + 1)
    refine ⟨(⟨n⟩, ty) :: xs, ?_, by rw [List.map_cons, htys], by rw [List.map_cons, hnames]; rfl⟩
    have hstep : newNonames (ty :: tys) n
        = (newNonames tys (n + 1)).bind fun p => some ((⟨n⟩, ty) :: p.1, p.2) := rfl
    have hlen : n + 1 + tys.length = n + (tys.length + 1) := by omega
    rw [hstep, hxs, Option.bind_some, List.length_cons, ← hlen]

/-- **New names are new columns.** -/
theorem Meets.newNonames {Ss : List Ty} {f : List (Var × Ty) → M δ} {R : δ → Prop}
    (h : ∀ xs n', n ≤ n' → Columns n n' xs Ss → Meets (f xs) n' G R) :
    Meets (newNonames (Ss.map Ty.loopTy) >>= f) n G R := by
  obtain ⟨xs, hxs, htys, hnames⟩ := newNonames_eq (Ss.map Ty.loopTy) n
  have hcols : Columns n (n + (Ss.map Ty.loopTy).length) xs Ss := by
    refine ⟨?_, ?_, fun x hx => ?_⟩
    · rw [← List.forall₂_map_left_iff (f := Prod.snd) (R := fun ty T => ty = Ty.loopTy T), htys,
        List.forall₂_map_left_iff]
      exact List.forall₂_same.mpr fun _ _ => rfl
    · rw [hnames]
      exact List.Nodup.map (fun _ _ h => Var.mk.inj h) List.nodup_range'
    · have hmem : x.1 ∈ (List.range' n (Ss.map Ty.loopTy).length).map Var.mk :=
        hnames ▸ List.mem_map_of_mem hx
      obtain ⟨i, hi, hix⟩ := List.mem_map.mp hmem
      rw [← hix]
      exact List.mem_range'_1.mp hi
  have hm := h xs _ (Nat.le_add_right _ _) hcols
  have hbind : (MatchCompile.newNonames (Ss.map Ty.loopTy) >>= f) n = f xs (n + (Ss.map Ty.loopTy).length) := by
    change (MatchCompile.newNonames (Ss.map Ty.loopTy) n).bind (fun p => f p.1 p.2) = _
    rw [hxs]
    rfl
  unfold Meets at hm ⊢
  rw [hbind]
  split at hm
  · exact hm
  · exact ⟨hm.1, (Nat.le_add_right _ _).trans hm.2.1, hm.2.2⟩

/-- A part that is not always needed. -/
theorem Meets.optional {needed : Bool} {m : M γ} {P : γ → Prop} (h : needed = true → Meets m n G P) :
    Meets (optional needed m) n (needed = true → G)
      fun o => (o = none → needed = false) ∧ ∀ e ∈ o, P e := by
  cases needed with
  | true =>
    refine ((h rfl).map fun e he => ⟨nofun, fun e' he' => Option.some.inj he' ▸ he⟩).congr ?_
    exact ⟨fun hG _ => hG, fun hG => hG rfl⟩
  | false => exact (Meets.pure ⟨fun _ => rfl, nofun⟩).congr (by simp)

end Monad

/-! ## Branches -/

section Branch

variable {D : Datatypes} {seqIndex : ℕ} {test : Var} {recur : Rec β} {bound : ℕ} {T : Ty} {Ts Ss : List Ty}
  {var : Var × Ty} {vars news : List (Var × Ty)} {rules : List (Rule β)} {facts facts' : Facts}
  {known known' : Var → Const → Prop} {n n' : ℕ} {asks : Pat → Bool} {f : Pat → List Pat}
  {admits : (ℕ → Value) → Value → Prop} {extend : Env → Value → (ℕ → Value) → Env → Prop}

/-- **What a branch does to the rows**: the columns, facts and constants it leads to. -/
structure Branch (D : Datatypes) (seqIndex : ℕ) (var : Var × Ty) (rules : List (Rule β))
    (facts facts' : Facts) (known known' : Var → Const → Prop) (n n' : ℕ) (news : List (Var × Ty))
    (Ss : List Ty) (asks : Pat → Bool) (f : Pat → List Pat) : Prop where
  columns : Columns n n' news Ss
  facts : FactsNext var.1 n n' facts facts'
  known : ∀ x c, known x c → known' x c
  below : ∀ x c, known' x c → x.id < n'
  typed : ∀ r ∈ keepRules asks rules, Pat.HaveTys D seqIndex (f r.head) Ss
  explains : ∀ r ∈ keepRules asks rules, ∀ p, Pat.fromNestedPat p = some r.head →
    Explains (fun x => List.lookup x facts') known' p var.1 ((f r.head).zip (news.map Prod.fst))
  wild : (f .wild).all Pat.isWild = true
  le : ∀ r ∈ keepRules asks rules, Pat.weights (f r.head) ≤ r.head.weight
  lt : ∃ r ∈ keepRules asks rules, Pat.weights (f r.head) + news.length ≤ r.head.weight

/-- **What a branch does to the values.** -/
def Extends (D : Datatypes) (seqIndex : ℕ) (test : Var) (T : Ty) (Ts : List Ty) (var : Var × Ty)
    (vars : List (Var × Ty)) (facts facts' : Facts) (known known' : Var → Const → Prop) (n : ℕ)
    (news : List (Var × Ty)) (Ss : List Ty) (admits : (ℕ → Value) → Value → Prop)
    (extend : Env → Value → (ℕ → Value) → Env → Prop) : Prop :=
  ∀ (μ : ℕ → Value) (Λ : ℕ → Ty) (v₀ w : Value) (σ σ' : Env), Typed D seqIndex μ Λ →
    Fits D seqIndex μ Λ test v₀ (T :: Ts) (var :: vars) facts known σ → σ var.1 = some w →
    w.HasTy D seqIndex Λ T → admits μ w → extend σ w μ σ' →
    Agree n σ σ' ∧ List.Forall₂ (fun x T => ∃ v, σ' x.1 = some v ∧ v.HasTy D seqIndex Λ T) news Ss ∧
      (facts' = facts ∨ ∃ f : Fact, facts' = (var.1, f) :: facts ∧ f.Holds μ σ' var.1) ∧
      ∀ x c, known' x c → known x c ∨ ∃ v, σ' x = some v ∧ Value.ofConst c = some v

/-- The value of the first column. -/
theorem Fits.head {μ : ℕ → Value} {Λ : ℕ → Ty} {v₀ w : Value} {σ : Env}
    (h : Fits D seqIndex μ Λ test v₀ (T :: Ts) (var :: vars) facts known σ) (hw : σ var.1 = some w) :
    w.HasTy D seqIndex Λ T := by
  obtain ⟨⟨v, hv, hT⟩, -⟩ := List.forall₂_cons.mp h.vars
  rwa [← Option.some.inj (hv.symm.trans hw)]

/-- **A branch** returns when its rows do not mix, and is correct for the values that get there. -/
theorem Branch.meets (hrec : RecSpec D seqIndex test recur bound)
    (hready : Ready D seqIndex test (T :: Ts) (var :: vars) rules facts known n)
    (hbound : size (var :: vars) rules ≤ bound)
    (hbranch : Branch D seqIndex var rules facts facts' known known' n n' news Ss asks f)
    (hext : Extends D seqIndex test T Ts var vars facts facts' known known' n news Ss admits extend)
    (hout : ∀ r ∈ rules, ∀ μ w, admits μ w → r.head.admits μ w → r.head.isWild = true ∨ asks r.head = true) :
    Meets (recur (news ++ vars) (nextRules asks f rules) facts') n'
      (¬ Mixes D ((nextRules asks f rules).map Rule.pats))
      (Gives D seqIndex test T Ts var vars rules facts known admits extend) := by
  have hnext := hready.next hbranch.columns hbranch.facts hbranch.known hbranch.below hbranch.typed
    hbranch.explains hbranch.wild
  have hsize : size (news ++ vars) (nextRules asks f rules) < size (var :: vars) rules :=
    size_next (fun r hr => (Rule.pats_eq (hready.typed r hr)).1) hbranch.le hbranch.lt
  refine (hrec hnext (hsize.trans_le hbound)).imp Iff.rfl fun e he => ?_
  intro ρ run μ Λ v₀ w σ σ' hμ hσ hw hadm hσ'
  obtain ⟨hagree, hnews, hfacts, hknown⟩ := hext μ Λ v₀ w σ σ' hμ hσ hw (hσ.head hw) hadm hσ'
  rw [he run hμ (hσ.next hready hagree hnews hfacts hknown)]
  exact hready.findSome?_next hσ hw (fun r hr => hout r hr μ w hadm)
    fun a b => run a fun x => List.lookup x b

/-- A branch that drops the column. -/
theorem Branch.drop (hready : Ready D seqIndex test (T :: Ts) (var :: vars) rules facts known n)
    (hfacts : FactsNext var.1 n n' facts facts') (hknown : ∀ x c, known x c → known' x c)
    (hbelow : ∀ x c, known' x c → x.id < n')
    (hexplains : ∀ r ∈ keepRules asks rules, ∀ p, Pat.fromNestedPat p = some r.head →
      Explains (fun x => List.lookup x facts') known' p var.1 []) :
    Branch D seqIndex var rules facts facts' known known' n n' [] [] asks (fun _ => []) where
  columns := .nil
  facts := hfacts
  known := hknown
  below := hbelow
  typed _ _ := trivial
  explains := hexplains
  wild := rfl
  le _ _ := Nat.zero_le _
  lt := by
    obtain ⟨r, hr, hw⟩ := hready.fallback
    rw [Rule.allWild, (Rule.pats_eq (hready.typed r hr)).1, List.all_cons, Bool.and_eq_true] at hw
    exact ⟨r, mem_keepRules.mpr ⟨hr, .inl hw.1⟩, Nat.zero_le _⟩

/-- The environment stays as it is. -/
def Same (σ : Env) (_ : Value) (_ : ℕ → Value) (σ' : Env) : Prop := σ' = σ

theorem map_pats_drop (asks : Pat → Bool) (rules : List (Rule β)) :
    (nextRules asks (fun _ => []) rules).map Rule.pats
      = (keep asks (rules.map Rule.pats)).map List.tail := by
  rw [← map_pats_keepRules, nextRules, List.map_map, List.map_map]
  rfl

theorem map_pats_parts (asks : Pat → Bool) (k : ℕ) (rules : List (Rule β)) :
    (nextRules asks (Pat.parts k) rules).map Rule.pats = spread k (keep asks (rules.map Rule.pats)) := by
  rw [← map_pats_keepRules, nextRules, spread, List.map_map, List.map_map]
  rfl

/-- **The default**: the rules that ask for nothing. -/
theorem default_meets (hrec : RecSpec D seqIndex test recur bound)
    (hready : Ready D seqIndex test (T :: Ts) (var :: vars) rules facts known n)
    (hbound : size (var :: vars) rules ≤ bound) (hn : n ≤ n') :
    Meets (recur vars ((keepRules (fun _ => false) rules).map Rule.drop) facts) n'
      (¬ Mixes D ((keep (fun _ => false) (rules.map Rule.pats)).map List.tail))
      (Gives D seqIndex test T Ts var vars rules facts known
        (fun μ w => ∀ r ∈ rules, r.head.admits μ w → r.head.isWild = true) Same) := by
  have hbranch : Branch D seqIndex var rules facts facts known known n n' [] [] (fun _ => false)
      (fun _ => []) := by
    refine Branch.drop hready (.same hn) (fun _ _ h => h)
      (fun x c h => (hready.known_below x c h).trans_le hn) fun r hr p hp => ?_
    obtain hw | hw := (mem_keepRules.mp hr).2
    · exact .of_wild (List.forall_mem_nil _) (by rw [hp, Pat.isWild_iff.mp hw])
    · exact absurd hw nofun
  rw [← map_pats_drop]
  refine hbranch.meets hrec hready hbound ?_ fun r hr μ w hadm hhead => .inl (hadm r hr hhead)
  rintro μ Λ v₀ w σ _ - hσ - - - rfl
  exact ⟨.rfl, .nil, .inl rfl, fun _ _ h => .inl h⟩

end Branch

/-! ## Columns that ask for nothing -/

section Kinds

variable {D : Datatypes} {seqIndex : ℕ} {test : Var} {recur : Rec β} {bound : ℕ} {caseType : Ty} {T : Ty}
  {Ts : List Ty} {var : Var × Ty} {vars : List (Var × Ty)} {rules : List (Rule β)} {facts : Facts}
  {known : Var → Const → Prop} {n : ℕ}

/-- `match` drops a column that asks for nothing. -/
theorem none_meets (hrec : RecSpec D seqIndex test recur bound)
    (hready : Ready D seqIndex test (T :: Ts) (var :: vars) rules facts known n)
    (hbound : size (var :: vars) rules ≤ bound) (hund : Undecided (rules.map Rule.pats))
    (hwild : ∀ r ∈ rules, r.head.isWild = true) :
    Meets (recur vars (rules.map Rule.drop) facts) n (¬ Mixes D (rules.map Rule.pats))
      (Correct D seqIndex test (T :: Ts) (var :: vars) rules facts known) := by
  have hkeep : keepRules (fun _ => false) rules = rules :=
    List.filter_eq_self.mpr fun r hr => by rw [hwild r hr, Bool.true_or]
  have hdefault := default_meets hrec hready hbound le_rfl
  rw [← map_pats_keepRules, hkeep] at hdefault
  refine hdefault.imp (not_mixes_of_wild hund ?_).symm fun e he => ?_
  · intro row hrow
    obtain ⟨r, hr, rfl⟩ := List.mem_map.mp hrow
    exact hwild r hr
  · intro ρ run μ Λ v₀ σ hμ hσ
    obtain ⟨⟨w, hw, -⟩, -⟩ := List.forall₂_cons.mp hσ.vars
    exact he run hμ hσ hw (fun r hr _ => hwild r hr) rfl

/-! ## Columns of constants -/

theorem constKey_iff (c : Const) (p : Pat) : Pat.isConst c p = true ↔ ∃ q, constKey p = some (c, q) := by
  cases p <;> simp [Pat.isConst, constKey]

/-- A constant of a type has a value, and only one has it. -/
theorem ofConst_isSome : ∀ {c : Const}, constTy c T → (Value.ofConst c).isSome
  | .intInf _, _ | .word _ _, _ | .wordVector _ _, _ => rfl
  | .cSymbol _, h | .null, h | .real _ _, h => by cases T <;> exact h.elim

theorem ofConst_inj {c c' : Const} {v : Value} (hc : constTy c T) (hc' : constTy c' T)
    (h : Value.ofConst c = some v) (h' : Value.ofConst c' = some v) : c = c' := by
  have heq : Value.ofConst c = Value.ofConst c' := h.trans h'.symm
  cases T with
  | con | record => cases c <;> exact hc.elim
  | intInf => cases c <;> cases c' <;> first | exact hc.elim | exact hc'.elim | simpa [Value.ofConst] using heq
  | word size => cases c <;> cases c' <;> first | exact hc.elim | exact hc'.elim | simpa [Value.ofConst] using heq
  | vector t =>
    cases t with
    | word size =>
      cases c with
      | wordVector size₁ ws =>
        cases c' with
        | wordVector size₂ ws' =>
          obtain rfl : size = size₁ := hc.1
          obtain rfl : size = size₂ := hc'.1
          have hmap : ws.map (Value.word size) = ws'.map (Value.word size) :=
            Value.vector.inj (Option.some.inj heq)
          rw [List.map_injective_iff.mpr (fun _ _ h => (Value.word.inj h).2) hmap]
        | _ => exact hc'.elim
      | _ => exact hc.elim
    | _ => cases c <;> exact hc.elim

/-- The case of a constant. -/
theorem const_branch (hrec : RecSpec D seqIndex test recur bound)
    (hready : Ready D seqIndex test (T :: Ts) (var :: vars) rules facts known n)
    (hbound : size (var :: vars) rules ≤ bound) (hcol : Column .const (rules.map Rule.pats)) {c : Const}
    (hc : constTy c T) {n' : ℕ} (hn : n ≤ n') :
    Meets (recur vars ((keepRules (Pat.isConst c) rules).map Rule.drop) facts) n'
      (¬ Mixes D ((keep (Pat.isConst c) (rules.map Rule.pats)).map List.tail))
      (Gives D seqIndex test T Ts var vars rules facts known (fun _ w => Value.ofConst c = some w) Same) := by
  have hbranch : Branch D seqIndex var rules facts facts known
      (fun x c' => known x c' ∨ x = var.1 ∧ c' = c) n n' [] [] (Pat.isConst c) (fun _ => []) := by
    refine Branch.drop hready (.same hn) (fun _ _ h => .inl h) ?_ fun r hr p hp => ?_
    · rintro x c' (h | ⟨rfl, -⟩)
      · exact (hready.known_below x c' h).trans_le hn
      · exact (hready.below _ List.mem_cons_self).trans_le hn
    · obtain hw | hw := (mem_keepRules.mp hr).2
      · exact .of_wild (List.forall_mem_nil _) (by rw [hp, Pat.isWild_iff.mp hw])
      · obtain ⟨isChar, isInt, hhead⟩ := Pat.isConst_iff.mp hw
        exact .of_const (.inr ⟨rfl, rfl⟩) (hhead ▸ hp)
  rw [← map_pats_drop]
  refine hbranch.meets hrec hready hbound ?_ fun r hr μ w hadm hhead => ?_
  · rintro μ Λ v₀ w σ _ - hσ hw - hadm rfl
    refine ⟨.rfl, .nil, .inl rfl, ?_⟩
    rintro x c' (h | ⟨rfl, rfl⟩)
    · exact .inl h
    · exact .inr ⟨w, hw, hadm⟩
  · refine (hcol.rule hr).imp_right fun hk => ?_
    have hT := (Rule.pats_eq (hready.typed r hr)).2.1
    obtain ⟨c', _, _, hp⟩ := Pat.exists_const hk
    rw [hp] at hhead hT ⊢
    exact decide_eq_true (ofConst_inj hT hc hhead hadm)

/-- The expression gives what the case of the variable's value gives. -/
def ConstChoice {α : Type} (seqIndex : ℕ) (x : Var) (cases : List (Const × Exp α)) (default : Option (Exp α))
    (e : Exp α) : Prop :=
  ∀ {ρ : Type} {run : α → Env → ρ} {μ : ℕ → Value} {σ : Env} {w : Value} {r : Option ρ}, σ x = some w →
    (∀ c ∈ cases, Value.ofConst c.1 = some w → Exp.eval seqIndex μ run σ c.2 = r) →
    (∀ e ∈ default, (∀ c ∈ cases, Value.ofConst c.1 ≠ some w) → Exp.eval seqIndex μ run σ e = r) →
    (default = none → ∃ c ∈ cases, Value.ofConst c.1 = some w) →
    Exp.eval seqIndex μ run σ e = r

theorem constExp_spec {α : Type} {cases : List (Const × Exp (Action α))} {default : Option (Exp (Action α))}
    (hne : cases ≠ []) (hty : ∀ c ∈ cases, constTy c.1 T) (hvar : var.2 = T.loopTy) :
    ∃ e, constExp caseType var cases default = some e ∧ ConstChoice seqIndex var.1 cases default e := by
  have hsome : ∀ c ∈ cases, (Value.ofConst c.1).isSome := fun c hc => ofConst_isSome (hty c hc)
  have htest : ∀ {μ : ℕ → Value} {σ : Env} {w : Value}, σ var.1 = some w →
      (Exp.var var.1 var.2 .undetermined : Exp (Action α)).value seqIndex μ σ = some w := fun h => h
  unfold constExp
  cases hdirect : directCases var.2 with
  | none =>
    cases default with
    | some dflt =>
      refine ⟨_, rfl, fun hw hcases hdflt _ => ?_⟩
      exact eval_casesIff (htest hw) hsome hcases (hdflt dflt rfl)
    | none =>
      obtain ⟨c, e, heq⟩ : ∃ c e, cases.getLast? = some (c, e) := by
        exact ⟨_, _, List.getLast?_eq_some_getLast hne⟩
      have hcases' : cases = cases.dropLast ++ [(c, e)] := (List.dropLast_append_getLast? _ heq).symm
      refine ⟨_, by rw [heq]; rfl, fun {ρ run μ σ w r} hw hcases _ hex => ?_⟩
      have hsub : ∀ c ∈ cases.dropLast, c ∈ cases := fun c hc => List.dropLast_subset _ hc
      refine eval_casesIff (htest hw) (fun c hc => hsome c (hsub c hc)) (fun c hc => hcases c (hsub c hc)) fun hno => ?_
      obtain ⟨c', hc', hv⟩ := hex rfl
      rw [hcases'] at hc'
      obtain hc' | hc' := List.mem_append.mp hc'
      · exact absurd hv (hno c' hc')
      · obtain rfl := List.mem_singleton.mp hc'
        exact hcases _ (List.mem_of_getLast? heq) hv
  | some size =>
    have hsize : T = .word size := by
      cases T with
      | word size' =>
        rw [hvar] at hdirect
        simp only [Ty.loopTy, directCases] at hdirect
        split at hdirect
        · rw [Option.some.inj hdirect]
        · exact absurd hdirect nofun
      | con | intInf | vector =>
        rw [hvar] at hdirect
        exact absurd hdirect nofun
      | record fs ts =>
        exfalso
        obtain ⟨c, hc⟩ := List.exists_mem_of_ne_nil _ hne
        have := hty c hc
        cases hc1 : c.1 <;> rw [hc1] at this <;> exact this
    subst hsize
    obtain ⟨words, rfl⟩ : ∃ words : List (ℕ × Exp (Action α)),
        words.map (fun c => (Ssa.Const.word size c.1, c.2)) = cases := by
      refine exists_map_eq fun c hc => ?_
      have hc := hty c hc
      obtain ⟨c, e⟩ := c
      cases c with
      | word size' value => exact ⟨(value, e), congrArg (fun s => (Ssa.Const.word s value, e)) hc.1⟩
      | _ => exact hc.elim
    dsimp only
    refine ⟨.casee (.ofWord size words default) (.var var.1 var.2 .undetermined) caseType .heap, ?_,
      fun {ρ run μ σ w r} hw hcases hdflt hex => ?_⟩
    · rw [mapM_map_some _ id]
      · simp
      · exact fun _ => rfl
    · have hmem : ∀ c ∈ words, (Ssa.Const.word size c.1, c.2) ∈ words.map fun c => (Ssa.Const.word size c.1, c.2) :=
        fun c hc => List.mem_map_of_mem hc
      change ((Exp.var var.1 var.2 .undetermined : Exp (Action α)).value seqIndex μ σ).bind _ = r
      rw [htest hw, Option.bind_some]
      refine eval_ofWord (fun c hc hv => hcases _ (hmem c hc) (congrArg some hv.symm))
        (fun e he hno => hdflt e he fun c hc hv => ?_) fun hnone => ?_
      · obtain ⟨c, hword, rfl⟩ := List.mem_map.mp hc
        exact hno c hword (Option.some.inj hv).symm
      · obtain ⟨c, hc, hv⟩ := hex hnone
        obtain ⟨c, hword, rfl⟩ := List.mem_map.mp hc
        exact ⟨c, hword, (Option.some.inj hv).symm⟩

/-- Every value of a column that leaves out no word is one of its constants. -/
theorem handled_matches {cs : List Const} {Λ : ℕ → Ty} {w : Value} (hty : ∀ c ∈ cs, constTy c T)
    (h : Handled (· ∈ cs)) (hw : w.HasTy D seqIndex Λ T) : ∃ c ∈ cs, Value.ofConst c = some w := by
  obtain ⟨size, hall⟩ := h
  have hT := hty _ (hall 0 (by positivity))
  cases T with
  | word size' =>
    obtain rfl : size' = size := hT.1
    cases hw with
    | word hvalue => exact ⟨_, hall _ hvalue, rfl⟩
  | _ => exact hT.elim

/-- **A column of constants.** -/
theorem const_meets (hrec : RecSpec D seqIndex test recur bound)
    (hready : Ready D seqIndex test (T :: Ts) (var :: vars) rules facts known n)
    (hbound : size (var :: vars) rules ≤ bound) (hund : Undecided (rules.map Rule.pats))
    (hcol : Column .const (rules.map Rule.pats)) :
    Meets (const caseType recur var vars rules facts) n (¬ Mixes D (rules.map Rule.pats))
      (Correct D seqIndex test (T :: Ts) (var :: vars) rules facts known) := by
  obtain ⟨hvar, -⟩ := List.forall₂_cons.mp hready.types
  have hkey : (splitRules constKey rules).isSome := by
    refine splitRules_isSome_iff.mpr fun r hr => ?_
    refine (hcol.rule hr).imp_right fun hk => ?_
    obtain ⟨_, _, _, hp⟩ := Pat.exists_const hk
    rw [hp]
    rfl
  obtain ⟨⟨cases, defaults⟩, hsplit⟩ := Option.isSome_iff_exists.mp hkey
  obtain ⟨spec, rfl⟩ := splitRules_spec constKey_iff rfl hsplit
  have hasked : ∀ c, Asked (Pat.isConst c) (rules.map Rule.pats) ↔ c ∈ cases.map Split.key :=
    fun _ => spec.asked_iff constKey_iff
  have hty : ∀ c ∈ cases, constTy c.key T := by
    intro c hc
    obtain ⟨r, hr, hkey⟩ := spec.source c hc
    have hT := (Rule.pats_eq (hready.typed r hr)).2.1
    obtain ⟨_, _, hp⟩ := Pat.isConst_iff.mp ((constKey_iff _ _).mpr ⟨_, hkey⟩)
    rwa [hp] at hT
  have hne : cases ≠ [] := by
    rintro rfl
    obtain ⟨row, hrow, hk⟩ := hcol.some
    obtain ⟨c, isChar, isInt, hp⟩ := Pat.exists_const hk
    exact absurd ((hasked c).mp ⟨row, hrow, Pat.isConst_iff.mpr ⟨isChar, isInt, hp⟩⟩) List.not_mem_nil
  unfold const
  extract_lets isInt finish
  obtain ⟨b, hb, hhandled⟩ := unhandledConsts_spec (List.map_eq_nil_iff.not.mpr hne) spec.nodup
    (List.forall_mem_map.mpr hty) isInt
  rw [hsplit]
  refine Meets.lift_some_bind ?_
  dsimp only
  rw [hb]
  refine Meets.lift_some_bind ?_
  have hcase : ∀ c ∈ cases, ∀ n', n ≤ n' → Meets (do let e ← finish c.rules; pure (c.key, e)) n'
      (¬ Mixes D ((keep (Pat.isConst c.key) (rules.map Rule.pats)).map List.tail))
      fun p => p.1 = c.key ∧ Gives D seqIndex test T Ts var vars rules facts known
        (fun _ w => Value.ofConst c.key = some w) Same p.2 := by
    intro c hc n' hn'
    rw [spec.rules_eq c hc]
    exact (const_branch hrec hready hbound hcol (hty c hc) hn').map fun e he => ⟨rfl, he⟩
  have hexp : ∀ (es : List (Const × Exp (Action β))) (default : Option (Exp (Action β))),
      List.Forall₂ (fun c p => p.1 = c.key ∧ Gives D seqIndex test T Ts var vars rules facts known
        (fun _ w => Value.ofConst c.key = some w) Same p.2) cases es →
      ∃ e, constExp caseType var es default = some e ∧ ConstChoice seqIndex var.1 es default e := by
    intro es default hes
    refine constExp_spec ?_ (fun p hp => ?_) hvar
    · rintro rfl
      exact hne (List.forall₂_nil_right_iff.mp hes)
    · obtain ⟨c, hc, hkey, -⟩ := Fold.exists_of_mem_right hes hp
      exact hkey ▸ hty c hc
  have hno : b = false → Handled fun c => c ∈ cases.map Split.key := fun hb =>
    not_not.mp fun h => absurd (hhandled.mpr h) (by rw [hb]; exact nofun)
  refine Meets.congr (Meets.bind (Meets.optional fun _ => default_meets hrec hready hbound le_rfl)
    fun default n₁ hn₁ hdefault => Meets.bind (Meets.mapM fun c hc n₂ hn₂ => hcase c hc n₂ (hn₁.trans hn₂))
      fun es n₃ hn₃ hes => Meets.lift (G := True) ?_ ?_) ?_
  · obtain ⟨e, he, -⟩ := hexp es default hes
    exact iff_of_true trivial (Option.isSome_iff_exists.mpr ⟨e, he⟩)
  · intro e he ρ run μ Λ v₀ σ hμ hσ
    obtain ⟨e', he', hspec⟩ := hexp es default hes
    obtain rfl := Option.some.inj (he.symm.trans he')
    obtain ⟨⟨w, hw, hwT⟩, -⟩ := List.forall₂_cons.mp hσ.vars
    refine hspec hw (fun p hp hpw => ?_) (fun d hd hno => ?_) fun hnone => ?_
    · obtain ⟨c, -, hkey, hgives⟩ := Fold.exists_of_mem_right hes hp
      exact hgives run hμ hσ hw (hkey ▸ hpw) rfl
    · refine hdefault.2 d hd run hμ hσ hw (fun r hr hadm => ?_) rfl
      refine (hcol.rule hr).resolve_right fun hk => ?_
      obtain ⟨c, isChar, isInt, hhead⟩ := Pat.exists_const hk
      obtain ⟨c', hc', rfl⟩ := List.mem_map.mp ((hasked c).mp
        ⟨r.pats, List.mem_map_of_mem hr, Pat.isConst_iff.mpr ⟨isChar, isInt, hhead⟩⟩)
      obtain ⟨p, hp, hkey, -⟩ := Fold.exists_of_mem_left hes hc'
      rw [hhead] at hadm
      exact hno p hp (hkey ▸ hadm)
    · obtain ⟨c, hc, hcw⟩ := handled_matches (List.forall_mem_map.mpr hty) (hno (hdefault.1 hnone)) hwT
      obtain ⟨c', hc', rfl⟩ := List.mem_map.mp hc
      obtain ⟨p, hp, hkey, -⟩ := Fold.exists_of_mem_left hes hc'
      exact ⟨p, hp, hkey ▸ hcw⟩
  · rw [hcol.not_mixes_iff hund]
    constructor
    · rintro ⟨hdflt, hcases, -⟩ rows' ht
      obtain ⟨c, hc, rfl⟩ | ⟨hno, rfl⟩ := hcol.tests_const.mp ht
      · obtain ⟨c, hmem, rfl⟩ := List.mem_map.mp ((hasked c).mp hc)
        exact hcases c hmem
      · exact hdflt (hhandled.mpr (by simpa only [← hasked] using hno))
    · intro hall
      refine ⟨fun hb => hall _ (hcol.tests_const.mpr (.inr ⟨?_, rfl⟩)), fun c hc => ?_, trivial⟩
      · simpa only [hasked] using hhandled.mp hb
      · exact hall _ (hcol.tests_const.mpr (.inl ⟨c.key, (hasked _).mpr (List.mem_map_of_mem hc), rfl⟩))

end Kinds

end MLton.MatchCompile
