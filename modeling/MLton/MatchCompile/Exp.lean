import MLton.MatchCompile.NestedPat

/-!
# MatchCompile/Exp — the expressions the match compiler builds

The operations of its parameter `Exp`, as syntax.  What the compiler does not look into, the right-hand
sides of rules, are actions: what one gives depends on the values of the variables.
-/

namespace MLton.MatchCompile

/-- `Pat.t` of case expressions. -/
structure CasePat where
  arg : Option (Var × Ty × Mode)
  con : Con
  targs : List Ty

mutual

/-- `Exp.t`.  The variables of `detuple` and `devector` are those that are passed to the body. -/
inductive Exp (α : Type) where
  | action (a : α)
  | casee (cases : Cases α) (test : Exp α) (ty : Ty) (mode : Mode)
  | const (c : Const)
  | deref (e : Exp α)
  | detuple (xs : List Var) (tuple body : Exp α)
  | devector (xs : List Var) (vector body : Exp α)
  | equal (e e' : Exp α)
  | iff (test thenn elsee : Exp α) (ty : Ty) (mode : Mode)
  | lett (x : Var) (exp : Exp α) (mode : Mode) (body : Exp α)
  | var (x : Var) (ty : Ty) (mode : Mode)
  | vectorLength (e : Exp α)

/-- `Cases.t`, with the default, if there is one, at the end. -/
inductive Cases (α : Type) where
  | con (pat : CasePat) (rhs : Exp α) (rest : Cases α)
  | default (rhs : Exp α)
  | none
  | word (size value : ℕ) (rhs : Exp α) (rest : Cases α)

end

namespace Cases

variable {α : Type}

def ofDefault : Option (Exp α) → Cases α
  | some e => default e
  | Option.none => none

/-- `Cases.Con`. -/
def ofCon (cases : List (CasePat × Exp α)) (dflt : Option (Exp α)) : Cases α :=
  cases.foldr (fun c rest => con c.1 c.2 rest) (ofDefault dflt)

/-- `Cases.Word`. -/
def ofWord (size : ℕ) (cases : List (ℕ × Exp α)) (dflt : Option (Exp α)) : Cases α :=
  cases.foldr (fun c rest => word size c.1 c.2 rest) (ofDefault dflt)

end Cases

/-- Comparisons of `test` with constants; the last case is compared with first. -/
def Exp.casesIff {α : Type} (test : Exp α) (ty : Ty) (cases : List (Const × Exp α)) (dflt : Exp α) : Exp α :=
  cases.foldl (fun rest (c, e) => .iff (.equal test (.const c)) e rest ty .heap) dflt

/-! ## Evaluation -/

/-- The values of variables. -/
abbrev Env := Var → Option Value

/-- Give values to variables. -/
def Env.bind (σ : Env) : List Var → List Value → Env
  | x :: xs, v :: vs => bind (Function.update σ x (some v)) xs vs
  | _, _ => σ

section Evaluation

variable {α ρ : Type} (seqIndex : ℕ) (μ : ℕ → Value)

/-- The value of what is tested. -/
def Exp.value (σ : Env) : Exp α → Option Value
  | .var x _ _ => σ x
  | .const c => Value.ofConst c
  | .deref e => (value σ e).bind fun
    | .loc l => some (μ l)
    | _ => none
  | .equal e e' => (value σ e).bind fun v => (value σ e').map fun v' =>
    .con (if v = v' then truee else falsee)
  | .vectorLength e => (value σ e).bind fun
    | .vector vs => some (.word seqIndex (vs.length % 2 ^ seqIndex))
    | _ => none
  | _ => none

variable (run : α → Env → ρ)

mutual

/-- What an expression gives. -/
def Exp.eval (σ : Env) : Exp α → Option ρ
  | .action a => some (run a σ)
  | .casee cases test _ _ => (test.value seqIndex μ σ).bind fun v => Cases.eval σ v cases
  | .detuple xs tuple body => (tuple.value seqIndex μ σ).bind fun v =>
    (v.fields xs.length).bind fun vs => Exp.eval (σ.bind xs vs) body
  | .devector xs vector body => (vector.value seqIndex μ σ).bind fun
    | .vector vs => if xs.length ≤ vs.length then Exp.eval (σ.bind xs vs) body else none
    | _ => none
  | .iff test thenn elsee _ _ => (test.value seqIndex μ σ).bind fun v =>
    if v = .con truee then Exp.eval σ thenn else if v = .con falsee then Exp.eval σ elsee else none
  | .lett x exp _ body => (exp.value seqIndex μ σ).bind fun v =>
    Exp.eval (Function.update σ x (some v)) body
  | _ => none

/-- The first case of a value. -/
def Cases.eval (σ : Env) (v : Value) : Cases α → Option ρ
  | .con pat rhs rest => match pat.arg, v with
    | Option.none, .con c => if c = pat.con then Exp.eval σ rhs else Cases.eval σ v rest
    | some (x, _, _), .conApp c w =>
      if c = pat.con then Exp.eval (Function.update σ x (some w)) rhs else Cases.eval σ v rest
    | _, _ => Cases.eval σ v rest
  | .default rhs => Exp.eval σ rhs
  | .none => none
  | .word size value rhs rest =>
    if v = .word size value then Exp.eval σ rhs else Cases.eval σ v rest

end

/-! ## What a choice between cases gives

The first case that matches is chosen; a result that every case that matches gives, and the default when
none does, is what the choice gives. -/

variable {seqIndex μ run} {σ : Env} {v : Value} {r : Option ρ}

/-- The value is made by the constructor, with an argument or without. -/
def CasePat.Matches (pat : CasePat) (v : Value) : Prop :=
  match pat.arg, v with
  | none, .con c => c = pat.con
  | some _, .conApp c _ => c = pat.con
  | _, _ => False

theorem eval_ofDefault {dflt : Option (Exp α)} (h : ∀ e ∈ dflt, Exp.eval seqIndex μ run σ e = r)
    (hne : dflt ≠ none) : Cases.eval seqIndex μ run σ v (Cases.ofDefault dflt) = r := by
  cases dflt with
  | none => exact absurd rfl hne
  | some e => exact h e rfl

theorem eval_ofWord {size : ℕ} {dflt : Option (Exp α)} : ∀ {cases : List (ℕ × Exp α)},
    (∀ c ∈ cases, v = .word size c.1 → Exp.eval seqIndex μ run σ c.2 = r) →
    (∀ e ∈ dflt, (∀ c ∈ cases, v ≠ .word size c.1) → Exp.eval seqIndex μ run σ e = r) →
    (dflt = none → ∃ c ∈ cases, v = .word size c.1) →
    Cases.eval seqIndex μ run σ v (Cases.ofWord size cases dflt) = r
  | [], _, hdflt, hne => by
    refine eval_ofDefault (fun e he => hdflt e he nofun) fun hnone => ?_
    obtain ⟨_, hc, -⟩ := hne hnone
    exact absurd hc List.not_mem_nil
  | c :: cases, hcases, hdflt, hne => by
    obtain ⟨hc, hcases⟩ := List.forall_mem_cons.mp hcases
    rw [Cases.ofWord, List.foldr_cons, Cases.eval]
    split
    next hv => exact hc hv
    next hv =>
      refine eval_ofWord hcases (fun e he hno => hdflt e he (List.forall_mem_cons.mpr ⟨hv, hno⟩)) ?_
      intro hnone
      obtain ⟨c', hc', hv'⟩ := hne hnone
      obtain rfl | hc' := List.mem_cons.mp hc'
      · exact absurd hv' hv
      · exact ⟨c', hc', hv'⟩

theorem eval_ofCon {dflt : Option (Exp α)} : ∀ {cases : List (CasePat × Exp α)},
    (∀ c ∈ cases, c.1.arg = none → v = .con c.1.con → Exp.eval seqIndex μ run σ c.2 = r) →
    (∀ c ∈ cases, ∀ x ty mode w, c.1.arg = some (x, ty, mode) → v = .conApp c.1.con w →
      Exp.eval seqIndex μ run (Function.update σ x (some w)) c.2 = r) →
    (∀ e ∈ dflt, (∀ c ∈ cases, ¬ c.1.Matches v) → Exp.eval seqIndex μ run σ e = r) →
    (dflt = none → ∃ c ∈ cases, c.1.Matches v) →
    Cases.eval seqIndex μ run σ v (Cases.ofCon cases dflt) = r
  | [], _, _, hdflt, hne => by
    refine eval_ofDefault (fun e he => hdflt e he nofun) fun hnone => ?_
    obtain ⟨_, hc, -⟩ := hne hnone
    exact absurd hc List.not_mem_nil
  | (pat, rhs) :: cases, hcon, happ, hdflt, hne => by
    have hrest : ¬ pat.Matches v → Cases.eval seqIndex μ run σ v (Cases.ofCon cases dflt) = r := by
      intro hv
      refine eval_ofCon (fun c hc => hcon c (List.mem_cons_of_mem _ hc))
        (fun c hc => happ c (List.mem_cons_of_mem _ hc))
        (fun e he hno => hdflt e he (List.forall_mem_cons.mpr ⟨hv, hno⟩)) fun hnone => ?_
      obtain ⟨c', hc', hv'⟩ := hne hnone
      obtain rfl | hc' := List.mem_cons.mp hc'
      · exact absurd hv' hv
      · exact ⟨c', hc', hv'⟩
    change Cases.eval seqIndex μ run σ v (Cases.con pat rhs (Cases.ofCon cases dflt)) = r
    obtain ⟨_ | ⟨x, ty, mode⟩, con, targs⟩ := pat
    · cases v with
      | con c =>
        change (if c = con then Exp.eval seqIndex μ run σ rhs else _) = r
        split
        next hc => exact hcon _ List.mem_cons_self rfl (congrArg Value.con hc)
        next hc => exact hrest hc
      | _ => exact hrest id
    · cases v with
      | conApp c w =>
        change (if c = con then Exp.eval seqIndex μ run (Function.update σ x (some w)) rhs else _) = r
        split
        next hc => exact happ _ List.mem_cons_self x ty mode w rfl (congrArg (Value.conApp · w) hc)
        next hc => exact hrest hc
      | _ => exact hrest id

theorem eval_casesIff {test : Exp α} {ty : Ty} (htest : test.value seqIndex μ σ = some v) :
    ∀ {cases : List (Const × Exp α)} {dflt : Exp α}, (∀ c ∈ cases, (Value.ofConst c.1).isSome) →
    (∀ c ∈ cases, Value.ofConst c.1 = some v → Exp.eval seqIndex μ run σ c.2 = r) →
    ((∀ c ∈ cases, Value.ofConst c.1 ≠ some v) → Exp.eval seqIndex μ run σ dflt = r) →
    Exp.eval seqIndex μ run σ (Exp.casesIff test ty cases dflt) = r
  | [], dflt, _, _, hdflt => hdflt nofun
  | (c, e) :: cases, dflt, hsome, hcases, hdflt => by
    obtain ⟨hc, hcases'⟩ := List.forall_mem_cons.mp hcases
    obtain ⟨hcsome, hsome'⟩ := List.forall_mem_cons.mp hsome
    change Exp.eval seqIndex μ run σ
      (Exp.casesIff test ty cases (.iff (.equal test (.const c)) e dflt ty .heap)) = r
    refine eval_casesIff htest hsome' hcases' fun hno => ?_
    obtain ⟨v', hv'⟩ := Option.isSome_iff_exists.mp hcsome
    rw [Exp.eval]
    simp only [Exp.value, htest, hv', Option.bind_some, Option.map_some]
    by_cases hvv : v = v'
    · rw [if_pos (by rw [if_pos hvv])]
      exact hc (hv'.trans (congrArg some hvv.symm))
    · rw [if_neg (by rw [if_neg hvv]; decide), if_pos (by rw [if_neg hvv])]
      refine hdflt (List.forall_mem_cons.mpr ⟨fun h => hvv ?_, hno⟩)
      exact (Option.some.inj (hv'.symm.trans h)).symm

end Evaluation

end MLton.MatchCompile
