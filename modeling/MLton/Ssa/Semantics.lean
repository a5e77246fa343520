import MLton.Machinery.Effects
import MLton.Ssa.Tree

/-!
# Ssa/Semantics — what a graph of SSA blocks does

The world outside answers calls and primitives, and its answer may depend on everything that happened
before.  Blocks run over an environment that only grows within one activation: a block binds its formals
over what the blocks before it bound.  `Runs` is a whole run of one activation, from a point in a block
to the way the activation ends.
-/

namespace MLton.Ssa

open MLton.Effects

/-- Values.  What a primitive makes and no other expression can take apart is `other`. -/
inductive Val where
  | con (con : Con) (vs : List Val)
  | const (c : Const)
  | other (n : ℕ)
  | tuple (vs : List Val)

namespace Val

def unit : Val := tuple []

/-- The components of a tuple of `n`; a tuple of one is its only component. -/
def components : ℕ → Val → Option (List Val)
  | 1, v => some [v]
  | n, tuple vs => if vs.length = n then some vs else none
  | _, _ => none

/-- Unless there is one component, the value is the tuple of its components. -/
theorem eq_tuple_of_components {n : ℕ} {v : Val} {vs : List Val} (h : v.components n = some vs)
    (hn : n ≠ 1) : v = tuple vs ∧ vs.length = n := by
  cases v with
  | tuple ws =>
    rw [components, Option.ite_none_right_eq_some] at h
    · exact ⟨congrArg tuple (Option.some.inj h.2), Option.some.inj h.2 ▸ h.1⟩
    · exact hn
  | con | const | other => simp [components] at h

/-- One component of a tuple. -/
def component (offset : ℕ) : Val → Option Val
  | tuple vs => vs[offset]?
  | _ => none

end Val

/-- What the world sees, in the order it happens. -/
inductive Event where
  | call (func : Func) (args : List Val)
  | prim (prim : Prim) (targs : List Ty) (mode : Option Mode) (args : List Val)
  | profile (e : ProfileExp)
  | runtime (prim : Prim) (args : List Val)

abbrev Trace := List Event

/-- What a call comes back with. -/
inductive Reply where
  | returned (v : Val)
  | raised (v : Val)

/-- The answers of the world, after each trace; none when it never comes back. -/
structure World where
  call : Trace → Func → List Val → Option Reply
  prim : Trace → Prim → List Ty → Option Mode → List Val → Option Val
  runtime : Trace → Prim → List Val → Option (List Val)

namespace World

/-- Call a function. -/
def callFunc (W : World) (func : Func) (vs : List Val) (t : Trace) : Result Val Val × Trace :=
  (match W.call t func vs with
    | some (.returned v) => .value v
    | some (.raised v) => .raised v
    | none => .gone, t ++ [.call func vs])

/-- Apply a primitive. -/
def primApp (W : World) (prim : Prim) (targs : List Ty) (mode : Option Mode) (vs : List Val)
    (t : Trace) : Result Val Val × Trace :=
  (match W.prim t prim targs mode vs with
    | some v => .value v
    | none => .gone, t ++ [.prim prim targs mode vs])

/-- Go to the runtime. -/
def runtimeCall (W : World) (prim : Prim) (vs : List Val) (t : Trace) :
    Result Val (List Val) × Trace :=
  (match W.runtime t prim vs with
    | some rs => .value rs
    | none => .gone, t ++ [.runtime prim vs])

end World

/-! ## Environments -/

/-- The values of the variables bound so far. -/
abbrev Env := Var → Option Val

namespace Env

/-- Bind one variable. -/
def set (ρ : Env) (x : Var) (v : Val) : Env := Function.update ρ x (some v)

/-- Bind variables one after the other. -/
def sets (ρ : Env) : List Var → List Val → Env
  | x :: xs, v :: vs => (ρ.set x v).sets xs vs
  | _, _ => ρ

/-- The values of all the variables. -/
def all (ρ : Env) (xs : List Var) : Option (List Val) := xs.mapM ρ

/-- Every variable bound in `ρ` is bound to the same value in `σ`. -/
def Sub (ρ σ : Env) : Prop := ∀ x v, ρ x = some v → σ x = some v

end Env

/-! ## Expressions and transfers -/

/-- The value of a right-hand side, and what computing it does. -/
def Exp.eval (W : World) (ρ : Env) : Exp → Trace → Result Val Val × Trace
  | .conApp con args _, t =>
    match ρ.all args with
    | some vs => (.value (.con con vs), t)
    | none => (.wrong, t)
  | .const c, t => (.value (.const c), t)
  | .primApp prim targs mode args, t =>
    match ρ.all args with
    | some vs => W.primApp prim targs mode vs t
    | none => (.wrong, t)
  | .profile e, t => (.value .unit, t ++ [.profile e])
  | .select x offset, t =>
    match (ρ x).bind (Val.component offset) with
    | some v => (.value v, t)
    | none => (.wrong, t)
  | .tuple exps _, t =>
    match ρ.all exps with
    | some vs => (.value (.tuple vs), t)
    | none => (.wrong, t)
  | .var x, t =>
    match ρ x with
    | some v => (.value v, t)
    | none => (.wrong, t)

/-- The arm a constructor selects, with the values the arm binds. -/
def conArm {α : Type} (v : Val) (arms : List (Con × α)) : Option (α × List Val) :=
  match v with
  | .con con vs => (arms.find? (·.1 = con)).map fun arm => (arm.2, vs)
  | _ => none

/-- The arm a word selects. -/
def wordArm {α : Type} (v : Val) (arms : List (ℕ × α)) : Option α :=
  match v with
  | .const (.word _ w) => (arms.find? (·.1 = w)).map Prod.snd
  | _ => none

/-- Where a case goes, with the values it hands over. -/
def Cases.target (v : Val) (default : Option Label) : Cases → Option (Label × List Val)
  | .con arms => (conArm v arms).or (default.map (·, []))
  | .word _ arms => ((wordArm v arms).or default).map (·, [])

/-- A case goes to one of its targets. -/
theorem Cases.target_mem {cases : Cases} {default : Option Label} {v : Val} {l : Label} {vs : List Val}
    (h : cases.target v default = some (l, vs)) : l ∈ cases.labels ++ default.toList := by
  cases cases with
  | con arms =>
    simp only [target, Option.or_eq_some_iff, Option.map_eq_some_iff, Prod.mk.injEq] at h
    obtain h | ⟨-, l', hl', rfl, -⟩ := h
    · cases v with
      | con con ws =>
        obtain ⟨arm, harm, heq⟩ := Option.map_eq_some_iff.mp h
        obtain ⟨rfl, -⟩ := Prod.mk.inj heq
        exact List.mem_append_left _ (List.mem_map_of_mem (List.mem_of_find?_eq_some harm))
      | const | other | tuple => simp [conArm] at h
    · simp [hl']
  | word size arms =>
    simp only [target, Option.map_eq_some_iff, Option.or_eq_some_iff, Prod.mk.injEq] at h
    obtain ⟨l', h | ⟨-, hl'⟩, rfl, -⟩ := h
    · cases v with
      | const c =>
        cases c with
        | word _ w =>
          obtain ⟨arm, harm, rfl⟩ := Option.map_eq_some_iff.mp h
          exact List.mem_append_left _ (List.mem_map_of_mem (List.mem_of_find?_eq_some harm))
        | _ => simp [wordArm] at h
      | con | other | tuple => simp [wordArm] at h
    · simp [hl']

/-- What comes after a transfer. -/
inductive Next where
  | jump (l : Label) (vs : List Val)
  | stop (r : Result Val Val)

/-- Where a raised value goes. -/
def Handler.next (v : Val) : Handler → Next
  | .caller => .stop (.raised v)
  | .dead => .stop .wrong
  | .handle l => .jump l [v]

/-- Where a call goes when it comes back. -/
def Return.next : Return → Result Val Val → Next
  | .nonTail cont _, .value v => .jump cont [v]
  | .nonTail _ handler, .raised v => Handler.next v handler
  | .tail, r => .stop r
  | .dead, .value _ => .stop .wrong
  | _, r => .stop r

/-- What a transfer does. -/
def Transfer.eval (W : World) (ρ : Env) : Transfer → Trace → Next × Trace
  | .bug, t => (.stop .bug, t)
  | .call args func k, t =>
    match ρ.all args with
    | some vs => (Return.next k (W.callFunc func vs t).1, (W.callFunc func vs t).2)
    | none => (.stop .wrong, t)
  | .case test cases default, t =>
    match (ρ test).bind (cases.target · default) with
    | some (l, vs) => (.jump l vs, t)
    | none => (.stop .wrong, t)
  | .goto dst args, t =>
    match ρ.all args with
    | some vs => (.jump dst vs, t)
    | none => (.stop .wrong, t)
  | .raise xs, t =>
    match ρ.all xs with
    | some [v] => (.stop (.raised v), t)
    | _ => (.stop .wrong, t)
  | .ret xs, t =>
    match ρ.all xs with
    | some [v] => (.stop (.value v), t)
    | _ => (.stop .wrong, t)
  | .runtime prim args l, t =>
    match ρ.all args with
    | some vs =>
      (match (W.runtimeCall prim vs t).1 with
        | .value rs => .jump l rs
        | _ => .stop .gone, (W.runtimeCall prim vs t).2)
    | none => (.stop .wrong, t)

/-! ## Runs -/

/-- A run from a point in a block to the way the activation ends. -/
inductive Runs (W : World) (P : Label → Option Block) :
    Env → Trace → List Statement → Transfer → Result Val Val → Trace → Prop
  | statement {ρ t s ss tr v t₁ r t₂} : s.exp.eval W ρ t = (.value v, t₁) →
      Runs W P (s.var.elim ρ (ρ.set · v)) t₁ ss tr r t₂ → Runs W P ρ t (s :: ss) tr r t₂
  | halt {ρ t s ss tr r t₁} : s.exp.eval W ρ t = (r, t₁) → (∀ v, r ≠ .value v) →
      Runs W P ρ t (s :: ss) tr r t₁
  | jump {ρ t tr l vs t₁ b r t₂} : tr.eval W ρ t = (.jump l vs, t₁) → P l = some b →
      b.args.length = vs.length →
      Runs W P (ρ.sets (b.args.map Prod.fst) vs) t₁ b.statements b.transfer r t₂ →
      Runs W P ρ t [] tr r t₂
  | stop {ρ t tr r t₁} : tr.eval W ρ t = (.stop r, t₁) → Runs W P ρ t [] tr r t₁

/-- A run that starts at a block without formals. -/
def RunsFrom (W : World) (P : Label → Option Block) (l : Label) (ρ : Env) (t : Trace)
    (r : Result Val Val) (t' : Trace) : Prop :=
  ∃ b, P l = some b ∧ b.args = [] ∧ Runs W P ρ t b.statements b.transfer r t'

variable {W : World} {P : Label → Option Block}

/-- **Runs end in one way**: the world being what it is, nothing is left to chance. -/
theorem Runs.unique {ρ : Env} {t : Trace} {ss : List Statement} {tr : Transfer}
    {r r' : Result Val Val} {t₁ t₂ : Trace} (h : Runs W P ρ t ss tr r t₁)
    (h' : Runs W P ρ t ss tr r' t₂) : r = r' ∧ t₁ = t₂ := by
  induction h with
  | statement he _ ih =>
    cases h' with
    | statement he' h' =>
      obtain ⟨hv, ht⟩ := Prod.mk.inj (he.symm.trans he')
      cases hv
      exact ih (ht ▸ h')
    | halt he' hr =>
      obtain ⟨hv, -⟩ := Prod.mk.inj (he.symm.trans he')
      exact absurd hv.symm (hr _)
  | halt he hr =>
    cases h' with
    | statement he' h' =>
      obtain ⟨hv, -⟩ := Prod.mk.inj (he.symm.trans he')
      exact absurd hv (hr _)
    | halt he' _ => exact Prod.mk.inj (he.symm.trans he')
  | jump he hb _ _ ih =>
    cases h' with
    | jump he' hb' _ h' =>
      obtain ⟨hn, ht⟩ := Prod.mk.inj (he.symm.trans he')
      cases hn
      cases hb.symm.trans hb'
      exact ih (ht ▸ h')
    | stop he' => exact absurd (Prod.mk.inj (he.symm.trans he')).1 (by simp)
  | stop he =>
    cases h' with
    | jump he' _ _ _ => exact absurd (Prod.mk.inj (he.symm.trans he')).1 (by simp)
    | stop he' =>
      obtain ⟨hn, ht⟩ := Prod.mk.inj (he.symm.trans he')
      cases hn
      exact ⟨rfl, ht⟩

theorem RunsFrom.unique {l : Label} {ρ : Env} {t : Trace} {r r' : Result Val Val} {t₁ t₂ : Trace}
    (h : RunsFrom W P l ρ t r t₁) (h' : RunsFrom W P l ρ t r' t₂) : r = r' ∧ t₁ = t₂ := by
  obtain ⟨b, hb, -, h⟩ := h
  obtain ⟨b', hb', -, h'⟩ := h'
  cases hb.symm.trans hb'
  exact h.unique h'

/-! ## Binding -/

namespace Env

variable {ρ σ τ : Env} {x y : Var} {v w : Val} {xs : List Var} {vs : List Val}

@[simp] theorem set_self : ρ.set x v x = some v := by simp [set]

theorem set_of_ne (h : y ≠ x) : ρ.set x v y = ρ y := by simp [set, h]

theorem Sub.refl (ρ : Env) : ρ.Sub ρ := fun _ _ h => h

theorem Sub.trans (h : ρ.Sub σ) (h' : σ.Sub τ) : ρ.Sub τ := fun x v hx => h' x v (h x v hx)

theorem Sub.set (h : ρ.Sub σ) : (ρ.set x v).Sub (σ.set x v) := by
  intro y w hy
  by_cases hyx : y = x
  · subst hyx
    simpa using hy
  · rw [set_of_ne hyx] at hy ⊢
    exact h y w hy

/-- Binding a variable that is not bound otherwise loses nothing. -/
theorem Sub.set_right (h : ρ.Sub σ) (hx : ρ x = none) : ρ.Sub (σ.set x v) := by
  intro y w hy
  rw [set_of_ne (by rintro rfl; simp [hx] at hy)]
  exact h y w hy

/-- Binding a variable to the value it has adds nothing. -/
theorem Sub.set_left (h : ρ.Sub σ) (hx : σ x = some v) : (ρ.set x v).Sub σ := by
  intro y w hy
  by_cases hyx : y = x
  · subst hyx
    simpa [hx] using hy
  · rw [set_of_ne hyx] at hy
    exact h y w hy

theorem Sub.sets (h : ρ.Sub σ) : (ρ.sets xs vs).Sub (σ.sets xs vs) := by
  induction xs generalizing ρ σ vs with
  | nil => exact h
  | cons x xs ih =>
    cases vs with
    | nil => exact h
    | cons v vs => exact ih h.set

@[simp] theorem all_nil : ρ.all [] = some [] := rfl

theorem all_cons : ρ.all (x :: xs) = some vs ↔
    ∃ v vs', vs = v :: vs' ∧ ρ x = some v ∧ ρ.all xs = some vs' := by
  simp only [all, List.mapM_cons, Option.pure_def, Option.bind_eq_bind, Option.bind_eq_some_iff,
    Option.some.injEq]
  constructor
  · rintro ⟨v, hv, vs', hvs, h⟩
    exact ⟨v, vs', h.symm, hv, hvs⟩
  · rintro ⟨v, vs', h, hv, hvs⟩
    exact ⟨v, hv, vs', hvs, h.symm⟩

theorem all_singleton : ρ.all [x] = some [v] ↔ ρ x = some v := by
  simp [all_cons]

theorem all_append {ys : List Var} {ws : List Val} (hxs : ρ.all xs = some vs)
    (hys : ρ.all ys = some ws) : ρ.all (xs ++ ys) = some (vs ++ ws) := by
  induction xs generalizing vs with
  | nil => simpa using (Option.some.inj hxs) ▸ hys
  | cons x xs ih =>
    obtain ⟨v, vs', rfl, hv, hvs⟩ := all_cons.mp hxs
    exact all_cons.mpr ⟨v, vs' ++ ws, rfl, hv, ih hvs⟩

theorem sets_of_notMem (hx : x ∉ xs) : ρ.sets xs vs x = ρ x := by
  induction xs generalizing ρ vs with
  | nil => rfl
  | cons y ys ih =>
    cases vs with
    | nil => rfl
    | cons w ws =>
      simp only [List.mem_cons, not_or] at hx
      obtain ⟨hxy, hx⟩ := hx
      exact (ih hx).trans (set_of_ne hxy)

theorem all_sets (hxs : xs.Nodup) (hvs : xs.length = vs.length) :
    (ρ.sets xs vs).all xs = some vs := by
  induction xs generalizing ρ vs with
  | nil => simp_all [List.length_eq_zero_iff.mp hvs.symm]
  | cons x xs ih =>
    cases vs with
    | nil => simp at hvs
    | cons v vs =>
      obtain ⟨hx, hxs⟩ := List.nodup_cons.mp hxs
      exact all_cons.mpr ⟨v, vs, rfl, (sets_of_notMem hx).trans set_self,
        ih hxs (Nat.succ.inj hvs)⟩

theorem exists_of_all (h : ρ.all xs = some vs) (hx : x ∈ xs) : ∃ v, ρ x = some v := by
  induction xs generalizing vs with
  | nil => simp at hx
  | cons y ys ih =>
    obtain ⟨v, vs', rfl, hv, hvs⟩ := all_cons.mp h
    obtain rfl | hx := List.mem_cons.mp hx
    · exact ⟨v, hv⟩
    · exact ih hvs hx

theorem all_length (h : ρ.all xs = some vs) : vs.length = xs.length := by
  induction xs generalizing vs with
  | nil => simp_all
  | cons x xs ih =>
    obtain ⟨v, vs', rfl, -, h⟩ := all_cons.mp h
    simp [ih h]

theorem all_getElem? {i : ℕ} (h : ρ.all xs = some vs) (hx : xs[i]? = some x) :
    ∃ v, vs[i]? = some v ∧ ρ x = some v := by
  induction xs generalizing vs i with
  | nil => simp at hx
  | cons y ys ih =>
    obtain ⟨v, vs', rfl, hv, hvs⟩ := all_cons.mp h
    cases i with
    | zero =>
      obtain rfl : y = x := by simpa using hx
      exact ⟨v, by simp, hv⟩
    | succ i => simpa using ih hvs (by simpa using hx)

/-- Variables that are bound, or get bound, are bound. -/
theorem sets_bound (h : (∃ v, ρ x = some v) ∨ x ∈ xs) (hlen : xs.length = vs.length) :
    ∃ v, ρ.sets xs vs x = some v := by
  induction xs generalizing ρ vs with
  | nil => simpa [sets] using h
  | cons y ys ih =>
    cases vs with
    | nil => simp at hlen
    | cons w ws =>
      refine ih ?_ (Nat.succ.inj hlen)
      obtain rfl | hxy := eq_or_ne x y
      · exact .inl ⟨w, set_self⟩
      · simpa [set_of_ne hxy, hxy] using h

theorem Sub.all (h : ρ.Sub σ) (hvs : ρ.all xs = some vs) : σ.all xs = some vs := by
  induction xs generalizing vs with
  | nil => simpa using hvs
  | cons x xs ih =>
    obtain ⟨v, vs', rfl, hv, hvs⟩ := all_cons.mp hvs
    exact all_cons.mpr ⟨v, vs', rfl, h x v hv, ih hvs⟩

/-- Binding variables to the values they have adds nothing. -/
theorem Sub.sets_left (h : ρ.Sub σ) (hvs : σ.all xs = some vs) : (ρ.sets xs vs).Sub σ := by
  induction xs generalizing ρ vs with
  | nil => exact h
  | cons x xs ih =>
    obtain ⟨v, vs', rfl, hv, hvs⟩ := all_cons.mp hvs
    exact ih (h.set_left hv) hvs

/-- What is bound after binding some variables was bound before, or is one of them. -/
theorem sets_eq_some (h : ρ.sets xs vs x = some v) : ρ x = some v ∨ x ∈ xs := by
  induction xs generalizing ρ vs with
  | nil => exact Or.inl h
  | cons y ys ih =>
    cases vs with
    | nil => exact Or.inl h
    | cons w ws =>
      obtain h | h := ih h
      · by_cases hxy : x = y
        · exact Or.inr (hxy ▸ List.mem_cons_self ..)
        · rw [set_of_ne hxy] at h
          exact Or.inl h
      · exact Or.inr (List.mem_cons_of_mem _ h)

/-- Binding variables to the values that a larger environment has for them loses nothing. -/
theorem sub_sets (h : ρ.Sub σ) (hvs : σ.all xs = some vs) : ρ.Sub (ρ.sets xs vs) := by
  suffices ∀ τ : Env, ρ.Sub τ → τ.Sub σ → ρ.Sub (τ.sets xs vs) from this ρ (Sub.refl ρ) h
  induction xs generalizing vs with
  | nil => exact fun τ hρ _ => hρ
  | cons x xs ih =>
    obtain ⟨v, vs', rfl, hv, hvs⟩ := all_cons.mp hvs
    refine fun τ hρ hτ => ih hvs (τ.set x v) (fun y w hy => ?_) (hτ.set_left hv)
    by_cases hyx : y = x
    · subst hyx
      rw [set_self, ← hv]
      exact h y w hy
    · rw [set_of_ne hyx]
      exact hρ y w hy

end Env

end MLton.Ssa
