import MLton.MatchCompile.Branches

/-!
# MatchCompile/Constructors — columns of constructors

A branch that looks into a value puts the parts of the value in the place of its column.  A column of
constructors is put together from such branches; the cell of a reference is read instead of a choice.
-/

namespace MLton.MatchCompile

variable {β : Type} {D : Datatypes} {seqIndex : ℕ} {test : Var} {recur : Rec β} {bound : ℕ} {caseType : Ty}
  {T : Ty} {Ts Ss : List Ty} {var : Var × Ty} {vars news : List (Var × Ty)} {rules : List (Rule β)}
  {facts : Facts} {known : Var → Const → Prop} {n n' : ℕ} {asks : Pat → Bool}

/-! ## Branches that look into a value -/

theorem parts_wild (k : ℕ) : ∀ {a : Pat}, a ∈ Pat.parts k .wild → a = .wild :=
  fun h => List.eq_of_mem_replicate h

theorem weights_replicate_wild : ∀ k : ℕ, Pat.weights (List.replicate k .wild) = 0
  | 0 => rfl
  | k + 1 => by
    rw [List.replicate_succ, Pat.weights, weights_replicate_wild k]
    rfl

/-- A branch that puts the parts of a value in the place of its column. -/
theorem Branch.parts (hready : Ready D seqIndex test (T :: Ts) (var :: vars) rules facts known n)
    (hn : n ≤ n') (hcols : Columns n n' news Ss) {fact : Fact} (hfact : ∀ y ∈ fact.vars, y.id < n')
    (hlen : ∀ r ∈ rules, asks r.head = true → r.head.isWild = false →
      Pat.HaveTys D seqIndex (r.head.parts Ss.length) Ss ∧
        Pat.weights (r.head.parts Ss.length) + Ss.length ≤ r.head.weight ∧
        ∀ p, Pat.fromNestedPat p = some r.head →
          Explains (fun x => List.lookup x ((var.1, fact) :: facts)) known p var.1
            ((r.head.parts Ss.length).zip (news.map Prod.fst)))
    (hasked : ∃ r ∈ rules, asks r.head = true ∧ r.head.isWild = false) :
    Branch D seqIndex var rules facts ((var.1, fact) :: facts) known known n n' news Ss asks
      (Pat.parts Ss.length) where
  columns := hcols
  facts := ⟨hn, .inr ⟨fact, rfl, hfact⟩⟩
  known _ _ h := h
  below x c h := (hready.known_below x c h).trans_le hn
  typed r hr := by
    cases hw : r.head.isWild with
    | true =>
      rw [Pat.isWild_iff.mp hw]
      exact Pat.haveTys_replicate_wild Ss
    | false =>
      obtain ⟨hmem, hr⟩ := mem_keepRules.mp hr
      exact (hlen r hmem (hr.resolve_left (by rw [hw]; exact nofun)) hw).1
  explains r hr p hp := by
    cases hw : r.head.isWild with
    | true =>
      rw [Pat.isWild_iff.mp hw] at hp ⊢
      refine .of_wild (fun a ha => ?_) hp
      rw [parts_wild _ (List.of_mem_zip ha).1]
      rfl
    | false =>
      obtain ⟨hmem, hr⟩ := mem_keepRules.mp hr
      exact (hlen r hmem (hr.resolve_left (by rw [hw]; exact nofun)) hw).2.2 p hp
  wild := List.all_eq_true.mpr fun a ha => by rw [parts_wild _ ha]; rfl
  le r hr := by
    cases hw : r.head.isWild with
    | true =>
      rw [Pat.isWild_iff.mp hw]
      exact (weights_replicate_wild _).le
    | false =>
      obtain ⟨hmem, hr⟩ := mem_keepRules.mp hr
      exact (Nat.le_add_right _ _).trans (hlen r hmem (hr.resolve_left (by rw [hw]; exact nofun)) hw).2.1
  lt := by
    obtain ⟨r, hr, ha, hw⟩ := hasked
    refine ⟨r, mem_keepRules.mpr ⟨hr, .inr ha⟩, ?_⟩
    rw [hcols.types.length_eq]
    exact (hlen r hr ha hw).2.1

theorem Value.HaveTys.forall₂ {Λ : ℕ → Ty} : ∀ {vs : List Value} {ts : List Ty},
    Value.HaveTys D seqIndex Λ vs ts → List.Forall₂ (fun v T => v.HasTy D seqIndex Λ T) vs ts
  | [], _, h => by
    cases h
    exact .nil
  | _ :: _, _, h => by
    cases h with
    | cons hv hvs => exact .cons hv (forall₂ hvs)

theorem forall₂_trans {α γ δ : Type} {R : α → γ → Prop} {S : γ → δ → Prop} : ∀ {xs : List α} {ys : List γ}
    {zs : List δ}, List.Forall₂ R xs ys → List.Forall₂ S ys zs →
      List.Forall₂ (fun x z => ∃ y, R x y ∧ S y z) xs zs
  | _, _, _, .nil, .nil => .nil
  | _, _, _, .cons h hs, .cons h' hs' => .cons ⟨_, h, h'⟩ (forall₂_trans hs hs')

/-- The environment with new variables for the parts of a value. -/
def With (xs : List Var) (parts : (ℕ → Value) → Value → List Value → Prop) (σ : Env) (w : Value)
    (μ : ℕ → Value) (σ' : Env) : Prop := ∃ vs, parts μ w vs ∧ σ' = σ.bind xs vs

/-- A branch with the parts of a value binds them, and its fact is about them. -/
theorem Extends.parts (hcols : Columns n n' news Ss) (hvar : var.1.id < n) {fact : Fact}
    {admits : (ℕ → Value) → Value → Prop} {parts : (ℕ → Value) → Value → List Value → Prop}
    (htyped : ∀ (μ : ℕ → Value) (Λ : ℕ → Ty) (w : Value) (vs : List Value), Typed D seqIndex μ Λ →
      w.HasTy D seqIndex Λ T → admits μ w → parts μ w vs →
      List.Forall₂ (fun v T => v.HasTy D seqIndex Λ T) vs Ss)
    (hholds : ∀ (μ : ℕ → Value) (w : Value) (vs : List Value) (σ : Env), σ var.1 = some w → parts μ w vs →
      List.Forall₂ (fun x v => σ x = some v) (news.map Prod.fst) vs → fact.Holds μ σ var.1) :
    Extends D seqIndex test T Ts var vars facts ((var.1, fact) :: facts) known known n news Ss admits
      (With (news.map Prod.fst) parts) := by
  rintro μ Λ v₀ w σ _ hμ - hw hT hadm ⟨vs, hvs, rfl⟩
  have hagree : Agree n σ (σ.bind (news.map Prod.fst) vs) := by
    refine Agree.bind fun x hx => ?_
    obtain ⟨x, hmem, rfl⟩ := List.mem_map.mp hx
    exact (hcols.fresh x hmem).1
  have hvsT := htyped μ Λ w vs hμ hT hadm hvs
  have hlen : (news.map Prod.fst).length = vs.length := by
    rw [List.length_map, hcols.types.length_eq, hvsT.length_eq]
  have hbound := Env.bind_forall₂ (σ := σ) hcols.nodup hlen
  refine ⟨hagree, ?_, .inr ⟨fact, rfl, ?_⟩, fun _ _ h => .inl h⟩
  · exact forall₂_trans (List.forall₂_map_left_iff.mp hbound) hvsT
  · exact hholds μ w vs _ ((hagree _ hvar).trans hw) hvs hbound

/-! ## Columns of constructors -/

/-- The values that are made by a constructor. -/
def ConAdmits (c : Con) (arg : Option Ty) (μ : ℕ → Value) (w : Value) : Prop :=
  match arg with
  | none => w = .con c
  | some _ => (w.arg μ c).isSome

/-- The argument of a constructor. -/
def ConParts (c : Con) (arg : Option Ty) (μ : ℕ → Value) (w : Value) (vs : List Value) : Prop :=
  match arg with
  | none => w = .con c ∧ vs = []
  | some _ => ∃ u, w.arg μ c = some u ∧ vs = [u]

theorem Value.arg_con {μ : ℕ → Value} {c c' : Con} {u : Value} : (Value.con c').arg μ c ≠ some u := nofun

theorem Value.arg_loc {μ : ℕ → Value} {l : ℕ} : (Value.loc l).arg μ reff = some (μ l) := by
  rw [arg, if_pos rfl]

theorem Value.eq_conApp {μ : ℕ → Value} {c : Con} {u : Value} (hc : c ≠ reff) : ∀ {w : Value},
    w.arg μ c = some u → w = .conApp c u
  | .conApp d v, h => by
    simp only [arg] at h
    split at h
    next hd => rw [hd, Option.some.inj h]
    next => exact absurd h nofun
  | .loc l, h => by
    simp only [arg, if_neg hc] at h
    exact absurd h nofun
  | .con _, h | .intInf _, h | .other _, h | .record _, h | .vector _, h | .word _ _, h => absurd h nofun

/-- A value has the argument of one constructor only. -/
theorem Value.con_unique {μ : ℕ → Value} {c c' : Con} : ∀ {w : Value}, (w.arg μ c).isSome → (w.arg μ c').isSome →
    c = c'
  | .conApp d u, h, h' => by
    simp only [arg] at h h'
    split at h
    · split at h'
      · exact Eq.trans (Eq.symm ‹_›) ‹_›
      · exact absurd h' nofun
    · exact absurd h nofun
  | .loc l, h, h' => by
    simp only [arg] at h h'
    split at h
    · split at h'
      · exact Eq.trans ‹_› (Eq.symm ‹_›)
      · exact absurd h' nofun
    · exact absurd h nofun
  | .con _, h, _ | .intInf _, h, _ | .other _, h, _ | .record _, h, _ | .vector _, h, _ | .word _ _, h, _ =>
    absurd h nofun

/-- The argument of a constructor has its type. -/
theorem Value.HasTy.arg {μ : ℕ → Value} {Λ : ℕ → Ty} (hμ : Typed D seqIndex μ Λ) {c : Con} {ts : List Ty}
    {t : Ty} (harg : D.conArg c ts = some t) {w u : Value}
    (hw : w.HasTy D seqIndex Λ (.con (D.conTycon c) ts)) (hu : w.arg μ c = some u) :
    u.HasTy D seqIndex Λ t := by
  generalize hT : Ty.con (D.conTycon c) ts = T at hw
  cases hw with
  | @conApp c' ts' t' v hne harg' hv =>
    simp only [Value.arg] at hu
    split at hu
    next hc =>
      subst hc
      obtain ⟨-, rfl⟩ := Ty.con.inj hT
      obtain rfl := Option.some.inj (harg.symm.trans harg')
      rwa [← Option.some.inj hu]
    next => exact absurd hu nofun
  | @loc l =>
    simp only [Value.arg] at hu
    split at hu
    next hc =>
      subst hc
      obtain ⟨-, rfl⟩ := Ty.con.inj hT
      obtain rfl := Option.some.inj (harg.symm.trans (D.conArg_reff _))
      rw [← Option.some.inj hu]
      exact hμ l
    next => exact absurd hu nofun
  | field _ => exact absurd hT nofun
  | _ => exact absurd hu nofun

/-- The types of a pattern's constructor. -/
theorem Pat.hasTy_con {c : Con} {targs ts : List Ty} {tycon : Tycon}
    (h : (con c targs).HasTy D seqIndex (.con tycon ts)) :
    c ≠ reff ∧ targs = Ty.loopTys ts ∧ D.conTycon c = tycon ∧ D.conArg c ts = none := by
  obtain ⟨hc, ts', rfl, hT, harg⟩ := h
  obtain ⟨rfl, rfl⟩ := Ty.con.inj hT
  exact ⟨hc, rfl, rfl, harg⟩

theorem Pat.hasTy_conApp {c : Con} {targs ts : List Ty} {q : Pat} {ty : Ty} {tycon : Tycon}
    (h : (conApp c targs q ty).HasTy D seqIndex (.con tycon ts)) :
    ∃ t, targs = Ty.loopTys ts ∧ D.conTycon c = tycon ∧ D.conArg c ts = some t ∧ ty = t.loopTy ∧
      q.HasTy D seqIndex t := by
  obtain ⟨ts', t, rfl, hT, harg, hty, hq⟩ := h
  obtain ⟨rfl, rfl⟩ := Ty.con.inj hT
  exact ⟨t, rfl, rfl, harg, hty, hq⟩

theorem Columns.mono {n₀ : ℕ} (h : Columns n n' news Ss) (hn : n₀ ≤ n) : Columns n₀ n' news Ss :=
  ⟨h.types, h.nodup, fun x hx => ⟨hn.trans (h.fresh x hx).1, (h.fresh x hx).2⟩⟩

theorem Pat.conTycon_of_isCon {c : Con} {p : Pat} {ts : List Ty} {tycon : Tycon}
    (h : p.HasTy D seqIndex (.con tycon ts)) (hc : p.isCon c = true) : D.conTycon c = tycon := by
  obtain ⟨_, rfl⟩ | ⟨_, _, _, rfl⟩ := Pat.isCon_iff.mp hc
  · exact (Pat.hasTy_con h).2.2.1
  · obtain ⟨_, -, h, -⟩ := Pat.hasTy_conApp h
    exact h

/-- The case of a constructor. -/
theorem con_branch {tycon : Tycon} {ts : List Ty} {c : Con} {arg : Option Ty}
    (harg : D.conArg c ts = arg) (hrec : RecSpec D seqIndex test recur bound)
    (hready : Ready D seqIndex test (.con tycon ts :: Ts) (var :: vars) rules facts known n)
    (hbound : size (var :: vars) rules ≤ bound) (hcol : Column .con (rules.map Rule.pats))
    (hc : ∃ r ∈ rules, r.head.isCon c = true) (hn : n ≤ n')
    (hcols : Columns n n' news arg.toList) :
    Meets (recur (news ++ vars) (nextRules (Pat.isCon c) (Pat.parts arg.toList.length) rules)
        ((var.1, .con c (news.head?.map Prod.fst)) :: facts)) n'
      (¬ Mixes D (spread arg.toList.length (keep (Pat.isCon c) (rules.map Rule.pats))))
      (Gives D seqIndex test (.con tycon ts) Ts var vars rules facts known (ConAdmits c arg)
        (With (news.map Prod.fst) (ConParts c arg))) := by
  have htyped : ∀ r ∈ rules, r.head.HasTy D seqIndex (.con tycon ts) :=
    fun r hr => (Rule.pats_eq (hready.typed r hr)).2.1
  have hvar : var.1.id < n := hready.below _ List.mem_cons_self
  obtain ⟨r₀, hr₀, hr₀c⟩ := hc
  have htycon : D.conTycon c = tycon := Pat.conTycon_of_isCon (htyped r₀ hr₀) hr₀c
  have hhead : ∀ a, news.head?.map Prod.fst = some a → a ∈ news.map Prod.fst := by
    intro a ha
    obtain ⟨x, hx, rfl⟩ := Option.map_eq_some_iff.mp ha
    exact List.mem_map_of_mem (List.mem_of_head? hx)
  have hbranch : Branch D seqIndex var rules facts
      ((var.1, .con c (news.head?.map Prod.fst)) :: facts) known known n n' news arg.toList
      (Pat.isCon c) (Pat.parts arg.toList.length) := by
    refine Branch.parts hready hn hcols (fun y hy => ?_) (fun r hr ha hw => ?_)
      ⟨r₀, hr₀, hr₀c, ?_⟩
    · obtain ⟨x, hx, rfl⟩ := List.mem_map.mp (hhead y (Option.mem_toList.mp hy))
      exact (hcols.fresh x hx).2
    · have hT := htyped r hr
      have hlookup : List.lookup var.1 ((var.1, Fact.con c (news.head?.map Prod.fst)) :: facts)
          = some (.con c (news.head?.map Prod.fst)) := by
        rw [List.lookup_cons, beq_self_eq_true]
      obtain ⟨targs, hp⟩ | ⟨targs, q, ty, hp⟩ := Pat.isCon_iff.mp ha
      · obtain ⟨-, -, -, hnone⟩ := Pat.hasTy_con (hp ▸ hT)
        obtain rfl : none = arg := hnone.symm.trans harg
        obtain rfl := List.forall₂_nil_right_iff.mp hcols.types
        rw [hp]
        exact ⟨trivial, Nat.zero_le _, fun p hp' => .of_con hlookup hp'⟩
      · obtain ⟨t, -, -, hsome, -, hq⟩ := Pat.hasTy_conApp (hp ▸ hT)
        obtain rfl : some t = arg := hsome.symm.trans harg
        obtain ⟨x, xs, -, hxs, rfl⟩ := List.forall₂_cons_right_iff.mp hcols.types
        obtain rfl := List.forall₂_nil_right_iff.mp hxs
        rw [hp]
        exact ⟨⟨hq, trivial⟩, le_rfl, fun p hp' => .of_conApp hlookup hp'⟩
    · obtain ⟨_, hp⟩ | ⟨_, _, _, hp⟩ := Pat.isCon_iff.mp hr₀c <;> rw [hp] <;> rfl
  rw [← map_pats_parts]
  refine hbranch.meets hrec hready hbound (Extends.parts hcols hvar ?_ ?_) fun r hr μ w hadm hrw => ?_
  · rintro μ Λ w vs hμ hw - hvs
    cases arg with
    | none =>
      obtain ⟨-, rfl⟩ := hvs
      exact .nil
    | some t =>
      obtain ⟨u, hu, rfl⟩ := hvs
      exact .cons (Value.HasTy.arg hμ harg (htycon ▸ hw) hu) .nil
  · intro μ w vs σ hw hvs hnews
    cases arg with
    | none =>
      obtain ⟨rfl, rfl⟩ := hvs
      obtain rfl := List.map_eq_nil_iff.mp (List.forall₂_nil_right_iff.mp hnews)
      exact hw
    | some t =>
      obtain ⟨u, hu, rfl⟩ := hvs
      obtain ⟨x, xs, hx, -, hxs⟩ := List.forall₂_cons_right_iff.mp hnews
      have hhd : news.head?.map Prod.fst = some x := by rw [← List.head?_map, hxs]; rfl
      rw [hhd]
      exact ⟨w, u, hw, hu, hx⟩
  · refine (hcol.rule hr).imp_right fun hk => ?_
    have hT := htyped r hr
    obtain ⟨c', targs, hp⟩ | ⟨c', targs, q, ty, hp⟩ := Pat.exists_con hk
    · rw [hp] at hrw hT ⊢
      obtain ⟨-, -, -, hnone⟩ := Pat.hasTy_con hT
      cases arg with
      | none => exact decide_eq_true (Value.con.inj (hrw.symm.trans hadm))
      | some t =>
        obtain ⟨u, hu⟩ := Option.isSome_iff_exists.mp hadm
        exact absurd (hrw ▸ hu) Value.arg_con
    · rw [hp] at hrw hT ⊢
      cases arg with
      | none =>
        obtain ⟨u, hu⟩ := Option.isSome_iff_exists.mp hrw
        exact absurd ((show w = _ from hadm) ▸ hu) Value.arg_con
      | some t => exact decide_eq_true (Value.con_unique hrw hadm)

/-- The values of a constructed type. -/
theorem Value.HasTy.con_cases {Λ : ℕ → Ty} {tycon : Tycon} {ts : List Ty} {w : Value}
    (h : w.HasTy D seqIndex Λ (.con tycon ts)) :
    (∃ c, w = .con c ∧ D.conTycon c = tycon ∧ D.conArg c ts = none) ∨
      (∃ c u t, w = .conApp c u ∧ c ≠ reff ∧ D.conTycon c = tycon ∧ D.conArg c ts = some t) ∨
      (∃ l, w = .loc l ∧ tycon = .reff) ∨ ∀ c, D.conTycon c ≠ tycon := by
  cases h with
  | con _ harg => exact .inl ⟨_, rfl, rfl, harg⟩
  | conApp hne harg _ => exact .inr (.inl ⟨_, _, _, rfl, hne, rfl, harg⟩)
  | loc => exact .inr (.inr (.inl ⟨_, rfl, rfl⟩))
  | other hno => exact .inr (.inr (.inr hno))

/-- What is proved of the case of a constructor. -/
structure ConCase (D : Datatypes) (seqIndex : ℕ) (test : Var) (tycon : Tycon) (ts Ts : List Ty)
    (var : Var × Ty) (vars : List (Var × Ty)) (rules : List (Rule β)) (facts : Facts)
    (known : Var → Const → Prop) (c : Con) (p : CasePat × Exp (Action β)) : Prop where
  con : p.1.con = c
  rhs : ∃ xs : List (Var × Ty), p.1.arg = xs.head?.map (fun x => (x.1, x.2, .heap)) ∧
    xs.length = (D.conArg c ts).toList.length ∧
    Gives D seqIndex test (.con tycon ts) Ts var vars rules facts known (ConAdmits c (D.conArg c ts))
      (With (xs.map Prod.fst) (ConParts c (D.conArg c ts))) p.2

namespace ConCase

variable {tycon : Tycon} {ts : List Ty} {c : Con} {p : CasePat × Exp (Action β)} {ρ : Type}
  {run : β → (Var → Option Value) → ρ} {μ : ℕ → Value} {Λ : ℕ → Ty} {v₀ w u : Value} {σ : Env}

/-- A case without an argument is one of a constructor without an argument. -/
theorem arg_none (h : ConCase D seqIndex test tycon ts Ts var vars rules facts known c p) :
    p.1.arg = none ↔ D.conArg c ts = none := by
  obtain ⟨xs, harg, hlen, -⟩ := h.rhs
  rw [harg]
  cases xs with
  | nil =>
    cases hc : D.conArg c ts with
    | none => simp
    | some t => exact absurd (hc ▸ hlen) nofun
  | cons x xs =>
    cases hc : D.conArg c ts with
    | none => exact absurd (hc ▸ hlen) nofun
    | some t => simp

theorem eval_con (h : ConCase D seqIndex test tycon ts Ts var vars rules facts known c p)
    (hμ : Typed D seqIndex μ Λ)
    (hσ : Fits D seqIndex μ Λ test v₀ (.con tycon ts :: Ts) (var :: vars) facts known σ)
    (hw : σ var.1 = some w) (harg : p.1.arg = none) (hwc : w = .con c) :
    p.2.eval seqIndex μ (runAction run) σ = firstMatch run μ v₀ rules := by
  have hnone := h.arg_none.mp harg
  obtain ⟨xs, -, hlen, hgives⟩ := h.rhs
  rw [hnone] at hlen hgives
  obtain rfl := List.length_eq_zero_iff.mp hlen
  exact hgives run hμ hσ hw hwc ⟨[], ⟨hwc, rfl⟩, rfl⟩

theorem eval_conApp (h : ConCase D seqIndex test tycon ts Ts var vars rules facts known c p)
    (hμ : Typed D seqIndex μ Λ)
    (hσ : Fits D seqIndex μ Λ test v₀ (.con tycon ts :: Ts) (var :: vars) facts known σ)
    (hw : σ var.1 = some w) {x : Var} {ty : Ty} {mode : Mode} (harg : p.1.arg = some (x, ty, mode))
    (hu : w.arg μ c = some u) :
    p.2.eval seqIndex μ (runAction run) (Function.update σ x (some u)) = firstMatch run μ v₀ rules := by
  obtain ⟨xs, hxs, hlen, hgives⟩ := h.rhs
  obtain ⟨t, ht⟩ : ∃ t, D.conArg c ts = some t := by
    refine Option.ne_none_iff_exists'.mp fun hnone => ?_
    rw [h.arg_none.mpr hnone] at harg
    exact absurd harg nofun
  rw [ht] at hlen hgives
  obtain ⟨y, rfl⟩ := List.length_eq_one_iff.mp hlen
  obtain rfl : y.1 = x := congrArg Prod.fst (Option.some.inj (hxs.symm.trans harg))
  exact hgives run hμ hσ hw (Option.isSome_iff_exists.mpr ⟨u, hu⟩) ⟨[u], ⟨u, hu, rfl⟩, rfl⟩

end ConCase

theorem sumExp_normal {α : Type} {es : List (CasePat × Exp (Action α))} {default : Option (Exp (Action α))}
    (h : ∀ p ∈ es, p.1.con ≠ reff) : sumExp caseType var es default
      = some (.casee (.ofCon es default) (.var var.1 var.2 .undetermined) caseType .heap) := by
  match es with
  | [] => rfl
  | [(pat, rhs)] => exact if_pos (h _ List.mem_cons_self)
  | _ :: _ :: _ => rfl

theorem sumExp_reff {α : Type} {pat : CasePat} {rhs : Exp (Action α)} {default : Option (Exp (Action α))}
    {x : Var} {ty : Ty} {mode : Mode} (hcon : pat.con = reff) (harg : pat.arg = some (x, ty, mode)) :
    sumExp caseType var [(pat, rhs)] default
      = some (.lett x (.deref (.var var.1 var.2 .undetermined)) mode rhs) := by
  unfold sumExp
  dsimp only
  rw [if_neg (not_not.mpr hcon), harg]
  rfl

/-- **Choosing between constructors.** -/
theorem sumExp_correct {tycon : Tycon} {ts : List Ty} {cs : List Con}
    (hready : Ready D seqIndex test (.con tycon ts :: Ts) (var :: vars) rules facts known n)
    (hcol : Column .con (rules.map Rule.pats)) (hnodup : cs.Nodup)
    (hcs : ∀ c, c ∈ cs ↔ Asked (Pat.isCon c) (rules.map Rule.pats))
    {es : List (CasePat × Exp (Action β))}
    (hes : List.Forall₂ (ConCase D seqIndex test tycon ts Ts var vars rules facts known) cs es)
    {default : Option (Exp (Action β))}
    (hnone : default = none → tycon ≠ .exn ∧ ∀ c ∈ (D.tyconCons tycon).map Prod.fst, c ∈ cs)
    (hdefault : ∀ e ∈ default, Gives D seqIndex test (.con tycon ts) Ts var vars rules facts known
      (fun μ w => ∀ r ∈ rules, r.head.admits μ w → r.head.isWild = true) Same e) :
    ∃ e, sumExp caseType var es default = some e ∧
      Correct D seqIndex test (.con tycon ts :: Ts) (var :: vars) rules facts known e := by
  have htyped : ∀ r ∈ rules, r.head.HasTy D seqIndex (.con tycon ts) :=
    fun r hr => (Rule.pats_eq (hready.typed r hr)).2.1
  have htycon : ∀ c ∈ cs, D.conTycon c = tycon ∧ (c = reff → (D.conArg c ts).isSome) := by
    intro c hc
    obtain ⟨r, hr, hcon⟩ := asked_map.mp ((hcs c).mp hc)
    have hT := htyped r hr
    obtain ⟨_, hp⟩ | ⟨_, _, _, hp⟩ := Pat.isCon_iff.mp hcon
    · rw [hp] at hT
      obtain ⟨hne, -, h, -⟩ := Pat.hasTy_con hT
      exact ⟨h, fun hreff => absurd hreff hne⟩
    · rw [hp] at hT
      obtain ⟨t, -, h, harg, -⟩ := Pat.hasTy_conApp hT
      exact ⟨h, fun _ => Option.isSome_iff_exists.mpr ⟨t, harg⟩⟩
  obtain ⟨c₀, hc₀⟩ : ∃ c, c ∈ cs := by
    obtain ⟨row, hrow, hk⟩ := hcol.some
    obtain ⟨c, targs, hp⟩ | ⟨c, targs, q, ty, hp⟩ := Pat.exists_con hk
    · exact ⟨c, (hcs c).mpr ⟨row, hrow, by rw [hp]; exact decide_eq_true rfl⟩⟩
    · exact ⟨c, (hcs c).mpr ⟨row, hrow, by rw [hp]; exact decide_eq_true rfl⟩⟩
  by_cases hreff : tycon = .reff
  · -- all constructors are `reff`, so there is one case
    have hall : ∀ c ∈ cs, c = reff := fun c hc => D.conTycon_reff.mp ((htycon c hc).1.trans hreff)
    obtain rfl : cs = [reff] := by
      match cs with
      | [] => exact absurd hc₀ List.not_mem_nil
      | [c] => rw [hall c List.mem_cons_self]
      | c :: c' :: _ =>
        refine absurd ?_ (List.nodup_cons.mp hnodup).1
        rw [hall c List.mem_cons_self, hall c' (List.mem_cons_of_mem _ List.mem_cons_self)]
        exact List.mem_cons_self
    obtain ⟨⟨pat, rhs⟩, _, hp, hnil, rfl⟩ := List.forall₂_cons_left_iff.mp hes
    obtain rfl := List.forall₂_nil_left_iff.mp hnil
    obtain ⟨t, ht⟩ := Option.isSome_iff_exists.mp ((htycon reff List.mem_cons_self).2 rfl)
    obtain ⟨⟨x, ty, mode⟩, harg⟩ : ∃ a, pat.arg = some a := by
      refine Option.ne_none_iff_exists'.mp fun hno => ?_
      rw [hp.arg_none.mp hno] at ht
      exact absurd ht nofun
    refine ⟨_, sumExp_reff hp.con harg, fun {ρ} run {μ Λ v₀ σ} hμ hσ => ?_⟩
    obtain ⟨⟨w, hw, hwT⟩, -⟩ := List.forall₂_cons.mp hσ.vars
    obtain ⟨c, rfl, hc, hcarg⟩ | ⟨c, u, t', rfl, hne, hc, -⟩ | ⟨l, rfl, -⟩ | hno := hwT.con_cases
    · rw [D.conTycon_reff.mp (hc.trans hreff), ht] at hcarg
      exact absurd hcarg nofun
    · exact absurd (D.conTycon_reff.mp (hc.trans hreff)) hne
    · have hvalue : (Exp.deref (Exp.var var.1 var.2 .undetermined) : Exp (Action β)).value seqIndex μ σ
          = some (μ l) := by
        rw [Exp.value, Exp.value, hw]
        rfl
      rw [Exp.eval, hvalue, Option.bind_some]
      exact hp.eval_conApp hμ hσ hw harg Value.arg_loc
    · exact absurd (hreff ▸ (htycon reff List.mem_cons_self).1) (hno reff)
  · have hne : ∀ p ∈ es, p.1.con ≠ reff := by
      intro p hp hcon
      obtain ⟨c, hc, hcase⟩ := Fold.exists_of_mem_right hes hp
      have := (htycon c hc).1
      rw [← hcase.con, hcon, D.conTycon_reff.mpr rfl] at this
      exact hreff this.symm
    refine ⟨_, sumExp_normal hne, fun {ρ} run {μ Λ v₀ σ} hμ hσ => ?_⟩
    obtain ⟨⟨w, hw, hwT⟩, -⟩ := List.forall₂_cons.mp hσ.vars
    have hvalue : (Exp.var var.1 var.2 .undetermined : Exp (Action β)).value seqIndex μ σ = some w := hw
    have hmatch : ∀ c ∈ cs, (w = .con c ∧ D.conArg c ts = none ∨
        (∃ u, w = .conApp c u) ∧ ∃ t, D.conArg c ts = some t) → ∃ p ∈ es, p.1.Matches w := by
      intro c hc hwc
      obtain ⟨p, hp, hcase⟩ := Fold.exists_of_mem_left hes hc
      refine ⟨p, hp, ?_⟩
      unfold CasePat.Matches
      obtain ⟨rfl, hcarg⟩ | ⟨⟨u, rfl⟩, t, hcarg⟩ := hwc
      · rw [hcase.arg_none.mpr hcarg]
        exact hcase.con.symm
      · obtain ⟨a, ha⟩ := Option.ne_none_iff_exists'.mp fun hno =>
          absurd (hcarg.symm.trans (hcase.arg_none.mp hno)) nofun
        rw [ha]
        exact hcase.con.symm
    rw [Exp.eval, hvalue, Option.bind_some]
    refine eval_ofCon (fun p hp harg hwp => ?_) (fun p hp x ty mode u harg hwp => ?_) (fun e he hno => ?_)
      fun hdflt => ?_
    · obtain ⟨c, hc, hcase⟩ := Fold.exists_of_mem_right hes hp
      exact hcase.eval_con hμ hσ hw harg (hcase.con ▸ hwp)
    · obtain ⟨c, hc, hcase⟩ := Fold.exists_of_mem_right hes hp
      refine hcase.eval_conApp hμ hσ hw harg ?_
      rw [hwp, hcase.con]
      exact if_pos rfl
    · refine hdefault e he run hμ hσ hw (fun r hr hadm => ?_) rfl
      refine (hcol.rule hr).resolve_right fun hk => ?_
      have hT := htyped r hr
      have hmem : ∀ c, r.head.isCon c = true → c ∈ cs := fun c hc =>
        (hcs c).mpr ⟨r.pats, List.mem_map_of_mem hr, hc⟩
      obtain ⟨c, targs, hp⟩ | ⟨c, targs, q, ty, hp⟩ := Pat.exists_con hk
      · rw [hp] at hadm hT hmem
        obtain ⟨-, -, -, hcarg⟩ := Pat.hasTy_con hT
        obtain ⟨p, hp, hm⟩ := hmatch c (hmem c (decide_eq_true rfl)) (.inl ⟨hadm, hcarg⟩)
        exact hno p hp hm
      · rw [hp] at hadm hT hmem
        obtain ⟨t, -, hc, hcarg, -⟩ := Pat.hasTy_conApp hT
        obtain ⟨u, hu⟩ := Option.isSome_iff_exists.mp hadm
        have hwu := Value.eq_conApp (fun h => hreff (hc.symm.trans (D.conTycon_reff.mpr h))) hu
        obtain ⟨p, hp, hm⟩ := hmatch c (hmem c (decide_eq_true rfl)) (.inr ⟨⟨u, hwu⟩, t, hcarg⟩)
        exact hno p hp hm
    · obtain ⟨hexn, hall⟩ := hnone hdflt
      have hmem : ∀ c, D.conTycon c = tycon → c ∈ cs := by
        intro c hc
        have := D.mem_tyconCons (hc ▸ hexn)
        rw [hc] at this
        exact hall c this
      obtain ⟨c, rfl, hc, hcarg⟩ | ⟨c, u, t, rfl, -, hc, hcarg⟩ | ⟨l, -, hl⟩ | hother := hwT.con_cases
      · exact hmatch c (hmem c hc) (.inl ⟨rfl, hcarg⟩)
      · exact hmatch c (hmem c hc) (.inr ⟨⟨u, rfl⟩, t, hcarg⟩)
      · exact absurd hl hreff
      · exact absurd (htycon c₀ hc₀).1 (hother c₀)

theorem sumKey_iff (c : Con) (p : Pat) : Pat.isCon c p = true ↔ ∃ q, sumKey p = some (c, q) := by
  cases p <;> simp [Pat.isCon, sumKey]

/-- The argument of the patterns of a constructor. -/
theorem takes_iff {tycon : Tycon} {ts : List Ty}
    (htyped : ∀ r ∈ rules, r.head.HasTy D seqIndex (.con tycon ts)) {c : Con} {k : ℕ} :
    Takes c k (rules.map Rule.pats) ↔
      Asked (Pat.isCon c) (rules.map Rule.pats) ∧ k = (D.conArg c ts).toList.length := by
  constructor
  · intro h
    refine ⟨asked_of_takes h, ?_⟩
    obtain ⟨row, hrow, h⟩ := h
    obtain ⟨r, hr, rfl⟩ := List.mem_map.mp hrow
    have hT := htyped r hr
    obtain ⟨rfl, targs, hp⟩ | ⟨rfl, targs, q, ty, hp⟩ := h
    · rw [show r.head = _ from hp] at hT
      rw [(Pat.hasTy_con hT).2.2.2]
      rfl
    · rw [show r.head = _ from hp] at hT
      obtain ⟨t, -, -, harg, -⟩ := Pat.hasTy_conApp hT
      rw [harg]
      rfl
  · rintro ⟨⟨row, hrow, hc⟩, rfl⟩
    refine ⟨row, hrow, ?_⟩
    obtain ⟨r, hr, rfl⟩ := List.mem_map.mp hrow
    have hT := htyped r hr
    obtain ⟨targs, hp⟩ | ⟨targs, q, ty, hp⟩ := Pat.isCon_iff.mp hc
    · rw [show r.head = _ from hp] at hT
      rw [(Pat.hasTy_con hT).2.2.2]
      exact .inl ⟨rfl, targs, hp⟩
    · rw [show r.head = _ from hp] at hT
      obtain ⟨t, -, -, harg, -⟩ := Pat.hasTy_conApp hT
      rw [harg]
      exact .inr ⟨rfl, targs, q, ty, hp⟩

/-- What the compiler knows of a constructor's argument is right. -/
theorem SplitSpec.payload {tycon : Tycon} {ts : List Ty} {cases : List (Split Con (List Ty × Option Ty) β)}
    (spec : SplitSpec sumKey Pat.isCon rules cases)
    (htyped : ∀ r ∈ rules, r.head.HasTy D seqIndex (.con tycon ts)) {c : Split Con (List Ty × Option Ty) β}
    (hc : c ∈ cases) : c.payload.2 = (D.conArg c.key ts).map Ty.loopTy := by
  obtain ⟨r, hr, hkey⟩ := spec.source c hc
  have hT := htyped r hr
  cases hp : r.head with
  | con c' targs =>
    rw [hp] at hT hkey
    obtain ⟨hc', hpay⟩ := Prod.mk.inj (Option.some.inj hkey)
    rw [← hpay, ← hc', (Pat.hasTy_con hT).2.2.2]
    rfl
  | conApp c' targs q ty =>
    rw [hp] at hT hkey
    obtain ⟨hc', hpay⟩ := Prod.mk.inj (Option.some.inj hkey)
    obtain ⟨t, -, -, harg, hty, -⟩ := Pat.hasTy_conApp hT
    rw [← hpay, ← hc', harg, hty]
    rfl
  | _ =>
    rw [hp] at hkey
    exact absurd hkey nofun

/-- The rules of a case, with the argument in the place of the constructor. -/
theorem map_expand_decon {tycon : Tycon} {ts : List Ty}
    (htyped : ∀ r ∈ rules, r.head.HasTy D seqIndex (.con tycon ts)) (c : Con) :
    (keepRules (Pat.isCon c) rules).map (Rule.expand (decon ((D.conArg c ts).map Ty.loopTy).isSome))
      = nextRules (Pat.isCon c) (Pat.parts (D.conArg c ts).toList.length) rules := by
  refine List.map_congr_left fun r hr => ?_
  obtain ⟨hr, hk⟩ := mem_keepRules.mp hr
  have hparts : decon ((D.conArg c ts).map Ty.loopTy).isSome r.head
      = r.head.parts (D.conArg c ts).toList.length := by
    obtain hw | hc := hk
    · rw [Pat.isWild_iff.mp hw]
      cases D.conArg c ts <;> rfl
    · have hT := htyped r hr
      obtain ⟨targs, hp⟩ | ⟨targs, q, ty, hp⟩ := Pat.isCon_iff.mp hc
      · rw [hp] at hT ⊢
        rw [(Pat.hasTy_con hT).2.2.2]
        rfl
      · rw [hp]
        rfl
  rw [Rule.expand, Rule.expand, hparts]

/-- **A column of constructors.** -/
theorem sum_meets {tycon : Tycon} {ts : List Ty} (hrec : RecSpec D seqIndex test recur bound)
    (hready : Ready D seqIndex test (.con tycon ts :: Ts) (var :: vars) rules facts known n)
    (hbound : size (var :: vars) rules ≤ bound) (hund : Undecided (rules.map Rule.pats))
    (hcol : Column .con (rules.map Rule.pats)) :
    Meets (sum D caseType recur var vars rules facts tycon) n (¬ Mixes D (rules.map Rule.pats))
      (Correct D seqIndex test (.con tycon ts :: Ts) (var :: vars) rules facts known) := by
  have htyped : ∀ r ∈ rules, r.head.HasTy D seqIndex (.con tycon ts) :=
    fun r hr => (Rule.pats_eq (hready.typed r hr)).2.1
  have hkey : (splitRules sumKey rules).isSome := by
    refine splitRules_isSome_iff.mpr fun r hr => ?_
    refine (hcol.rule hr).imp_right fun hk => ?_
    obtain ⟨c, targs, hp⟩ | ⟨c, targs, q, ty, hp⟩ := Pat.exists_con hk
    · rw [hp]
      rfl
    · rw [hp]
      rfl
  obtain ⟨⟨cases, defaults⟩, hsplit⟩ := Option.isSome_iff_exists.mp hkey
  obtain ⟨spec, rfl⟩ := splitRules_spec sumKey_iff rfl hsplit
  have hasked : ∀ c, c ∈ cases.map Split.key ↔ Asked (Pat.isCon c) (rules.map Rule.pats) :=
    fun _ => (spec.asked_iff sumKey_iff).symm
  have hne : cases ≠ [] := by
    rintro rfl
    obtain ⟨row, hrow, hk⟩ := hcol.some
    obtain ⟨c, targs, hp⟩ | ⟨c, targs, q, ty, hp⟩ := Pat.exists_con hk
    all_goals
      exact absurd ((hasked c).mpr ⟨row, hrow, by rw [hp]; exact decide_eq_true rfl⟩) List.not_mem_nil
  have hcase : ∀ c ∈ cases, ∀ n', n ≤ n' → Meets (do
      let arg ← newNonames c.payload.2.toList
      let e ← recur (arg ++ vars) (c.rules.map (Rule.expand (decon c.payload.2.isSome)))
        ((var.1, .con c.key (arg.head?.map Prod.fst)) :: facts)
      pure ({ arg := arg.head?.map fun x => (x.1, x.2, .heap), con := c.key,
              targs := c.payload.1 : CasePat }, e)) n'
      (¬ Mixes D (spread (D.conArg c.key ts).toList.length (keep (Pat.isCon c.key) (rules.map Rule.pats))))
      (ConCase D seqIndex test tycon ts Ts var vars rules facts known c.key) := by
    intro c hc n' hn'
    obtain ⟨r, hr, hrkey⟩ := spec.source c hc
    rw [spec.payload htyped hc, spec.rules_eq c hc, map_expand_decon htyped, Option.toList_map]
    refine Meets.newNonames fun xs n₁ hn₁ hcols => ?_
    refine (con_branch rfl hrec hready hbound hcol ⟨r, hr, (sumKey_iff _ _).mpr ⟨_, hrkey⟩⟩ (hn'.trans hn₁)
      (hcols.mono hn')).map fun e he => ⟨rfl, xs, rfl, hcols.types.length_eq, he⟩
  let needed : Bool := if tycon = .exn then true
    else !((D.tyconCons tycon).filter fun c => c.1 ∉ cases.map Split.key).isEmpty
  have hneeded : needed = true ↔
      tycon = .exn ∨ ∃ c ∈ (D.tyconCons tycon).map Prod.fst, c ∉ cases.map Split.key := by
    by_cases hexn : tycon = .exn
    · exact iff_of_true (if_pos hexn) (.inl hexn)
    · simp only [needed, hexn, if_false, false_or, Bool.not_eq_true', List.isEmpty_eq_false_iff, ne_eq,
        List.filter_eq_nil_iff, decide_eq_true_eq, not_forall, not_not, exists_prop]
      constructor
      · rintro ⟨c, hc, hno⟩
        exact ⟨c.1, List.mem_map_of_mem hc, hno⟩
      · rintro ⟨_, hmem, hno⟩
        obtain ⟨c, hc, rfl⟩ := List.mem_map.mp hmem
        exact ⟨c, hc, hno⟩
  have htycon : ∀ c ∈ cases.map Split.key, D.conTycon c = tycon := by
    intro c hc
    obtain ⟨r, hr, hcon⟩ := asked_map.mp ((hasked c).mp hc)
    exact Pat.conTycon_of_isCon (htyped r hr) hcon
  unfold sum
  rw [hsplit]
  refine Meets.lift_some_bind ?_
  dsimp only
  refine Meets.congr (G := _ ∧ (needed = true →
      ¬ Mixes D ((keep (fun _ => false) (rules.map Rule.pats)).map List.tail)) ∧ True)
    (Meets.bind (Meets.mapM hcase) fun es n₁ hn₁ hes => ?_) ?_
  · have hes_ne : es.isEmpty = false := by
      cases es with
      | nil => exact absurd (List.forall₂_nil_right_iff.mp hes) hne
      | cons => rfl
    rw [if_neg (by rw [hes_ne]; exact nofun)]
    refine Meets.bind (Meets.optional fun _ => default_meets hrec hready hbound hn₁)
      fun default n₂ hn₂ hdefault => ?_
    obtain ⟨e, he, hcorrect⟩ : ∃ e, sumExp caseType var es default = some e ∧
        Correct D seqIndex test (.con tycon ts :: Ts) (var :: vars) rules facts known e := by
      refine sumExp_correct hready hcol spec.nodup hasked (List.forall₂_map_left_iff.mpr hes)
        (fun hnone => ?_) hdefault.2
      have hfalse : needed = false := hdefault.1 hnone
      have hno := hneeded.not.mp (by rw [hfalse]; exact nofun)
      exact ⟨fun h => hno (.inl h), fun c hc => not_not.mp fun h => hno (.inr ⟨c, hc, h⟩)⟩
    exact Meets.lift (iff_of_true trivial (Option.isSome_iff_exists.mpr ⟨e, he⟩))
      fun e' he' => Option.some.inj (he.symm.trans he') ▸ hcorrect
  · rw [hcol.not_mixes_iff hund]
    constructor
    · rintro ⟨hcases, hdflt, -⟩ rows' ht
      obtain ⟨c, k, hk, rfl⟩ | ⟨⟨c, hc, hd⟩, rfl⟩ := hcol.tests_con.mp ht
      · obtain ⟨hc, rfl⟩ := (takes_iff htyped).mp hk
        obtain ⟨c, hmem, rfl⟩ := List.mem_map.mp ((hasked c).mpr hc)
        exact hcases c hmem
      · refine hdflt (hneeded.mpr ?_)
        rw [htycon c ((hasked c).mpr hc)] at hd
        simpa only [hasked] using hd
    · intro hall
      refine ⟨fun c hc => ?_, fun hb => hall _ (hcol.tests_con.mpr (.inr ⟨?_, rfl⟩)), trivial⟩
      · have hk := (hasked c.key).mp (List.mem_map_of_mem hc)
        exact hall _ (hcol.tests_con.mpr (.inl ⟨c.key, _, (takes_iff htyped).mpr ⟨hk, rfl⟩, rfl⟩))
      · obtain ⟨c, hc⟩ := List.exists_mem_of_ne_nil _ hne
        have hmem := List.mem_map_of_mem (f := Split.key) hc
        refine ⟨c.key, (hasked _).mp hmem, ?_⟩
        rw [htycon _ hmem]
        simpa only [← hasked] using hneeded.mp hb

end MLton.MatchCompile
