import Mathlib.Algebra.GroupWithZero.Nat
import Mathlib.Algebra.Order.BigOperators.Group.List
import Mathlib.Algebra.Order.Group.Nat
import Mathlib.Tactic.Cases
import MLton.Machinery.Fold

/-!
# Lib/FlatLattice — mutable elements of a flat lattice, and the constraints between them

An element holds a value of the flat lattice `⊥ < point p < ⊤` together with the elements that must
stay above it.  Raising an element raises those in turn; `coerce` records a new constraint.

* `makeTop_spec`, `lowerBoundPoint_spec` — one raise, recursion included, keeps every recorded
  constraint and only ever moves values up.
* `coerce_spec` — after `coerce src dst` the constraint `src ≤ dst` holds, with all older ones.

The recursion through the `lessThan` lists follows cycles; it stops because each call moves some
element up and the lattice has height two, which is what `weight` counts.
-/

namespace MLton.FlatLattice

/-- The values of the flat lattice over the points `π`. -/
inductive Value (π : Type*) where
  | bottom
  | point (p : π)
  | top
deriving DecidableEq, Repr

namespace Value

variable {π : Type*}

/-- The flat order. -/
protected def le : Value π → Value π → Prop
  | bottom, _ => True
  | _, top => True
  | point p, point q => p = q
  | _, _ => False

instance : PartialOrder (Value π) where
  le := Value.le
  le_refl v := by cases v <;> simp [Value.le]
  le_trans u v w huv hvw := by
    cases u <;> cases v <;> cases w <;> simp_all [Value.le]
  le_antisymm u v huv hvu := by
    cases u <;> cases v <;> simp_all [Value.le]

@[simp] theorem bottom_le (v : Value π) : bottom ≤ v := trivial

@[simp] theorem le_top (v : Value π) : v ≤ top := by cases v <;> trivial

@[simp] theorem top_le_iff {v : Value π} : top ≤ v ↔ v = top := by
  cases v <;> simp [LE.le, Value.le]

@[simp] theorem point_le_point {p q : π} : point p ≤ point q ↔ p = q := Iff.rfl

@[simp] theorem point_le_bottom {p : π} : ¬ point p ≤ bottom := fun h => h

/-- How many times a value can still be raised. -/
def rank : Value π → ℕ
  | bottom => 2
  | point _ => 1
  | top => 0

theorem rank_le_two (v : Value π) : v.rank ≤ 2 := by cases v <;> simp [rank]

theorem rank_anti {u v : Value π} (h : u ≤ v) : v.rank ≤ u.rank := by
  cases u <;> cases v <;> simp_all [rank]

/-- `Value.isPointEq`. -/
def isPointEq [DecidableEq π] (v : Value π) (p : π) : Bool := v == point p

@[simp] theorem isPointEq_iff [DecidableEq π] {v : Value π} {p : π} :
    v.isPointEq p = true ↔ v = point p := by
  cases v <;> simp [isPointEq]

end Value

/-- The heap of lattice elements: the value of each, and the elements recorded above it. -/
structure Store (κ π : Type*) where
  value : κ → Value π
  lessThan : κ → List κ

variable {κ π : Type*}

namespace Store

variable [DecidableEq κ]

/-- `value := v` at one element. -/
def setValue (s : Store κ π) (e : κ) (v : Value π) : Store κ π :=
  { s with value := Function.update s.value e v }

/-- `lessThan := es` at one element. -/
def setLessThan (s : Store κ π) (e : κ) (es : List κ) : Store κ π :=
  { s with lessThan := Function.update s.lessThan e es }

/-- `List.push (lessThan, dst)`. -/
def pushLessThan (s : Store κ π) (e dst : κ) : Store κ π :=
  s.setLessThan e (dst :: s.lessThan e)

@[simp] theorem lessThan_setValue (s : Store κ π) (e : κ) (v : Value π) :
    (s.setValue e v).lessThan = s.lessThan := rfl

@[simp] theorem value_setLessThan (s : Store κ π) (e : κ) (es : List κ) :
    (s.setLessThan e es).value = s.value := rfl

@[simp] theorem value_pushLessThan (s : Store κ π) (e dst : κ) :
    (s.pushLessThan e dst).value = s.value := rfl

@[simp] theorem value_setValue_self (s : Store κ π) (e : κ) (v : Value π) :
    (s.setValue e v).value e = v := Function.update_self ..

theorem value_setValue_of_ne (s : Store κ π) {e a : κ} (v : Value π) (h : a ≠ e) :
    (s.setValue e v).value a = s.value a := Function.update_of_ne h ..

end Store

open Store Value

section Ops

variable [DecidableEq κ]

/-- `makeTop`.  The first argument bounds the recursion through `lessThan`. -/
def makeTop : ℕ → Store κ π → κ → Store κ π
  | 0, s, _ => s
  | n + 1, s, e =>
    match s.value e with
    | .top => s
    | _ =>
      let s := s.setValue e .top
      let s := (s.lessThan e).foldl (makeTop n) s
      s.setLessThan e []

/-- `lowerBoundPoint`.  A second, different point can only be joined at the top. -/
def lowerBoundPoint [DecidableEq π] : ℕ → Store κ π → κ → π → Store κ π
  | 0, s, _, _ => s
  | n + 1, s, e, p =>
    match s.value e with
    | .bottom =>
      let s := s.setValue e (.point p)
      (s.lessThan e).foldl (fun s e' => lowerBoundPoint n s e' p) s
    | .point q => if p = q then s else makeTop (n + 1) s e
    | .top => s

/-- `coerce {from = src, to = dst}`: from now on `src` stays below `dst`. -/
def coerce [DecidableEq π] (n : ℕ) (s : Store κ π) (src dst : κ) : Store κ π :=
  if src = dst then s
  else
    match s.value src with
    | .bottom => s.pushLessThan src dst
    | .point p => lowerBoundPoint n (s.pushLessThan src dst) dst p
    | .top => makeTop n s dst

end Ops

/-! ## The invariant

`C` is the set of constraints recorded so far.  While an element is being raised to `v` its own
outgoing constraints may be broken; `P` names such pending raises by element *and* value, so that a
raise nested inside another one of the same element answers for the higher value itself. -/

/-- **The store respects the constraints `C`**, but for the pending raises `P`; every element a raise
can reach is listed in `U`. -/
structure Good (U : List κ) (C : κ → κ → Prop) (P : κ → Value π → Prop) (s : Store κ π) : Prop where
  closed : ∀ a b, b ∈ s.lessThan a → b ∈ U
  tracked : ∀ a b, C a b → a = b ∨ s.value a = .top ∨ b ∈ s.lessThan a
  holds : ∀ a b, C a b → ¬ P a (s.value a) → s.value a ≤ s.value b

/-- No raise is pending. -/
abbrev Quiet : κ → Value π → Prop := fun _ _ => False

/-- How many raises the listed elements still admit. -/
def weight (U : List κ) (s : Store κ π) : ℕ := (U.map fun k => (s.value k).rank).sum

theorem weight_anti (U : List κ) {s t : Store κ π} (h : ∀ k, s.value k ≤ t.value k) :
    weight U t ≤ weight U s :=
  List.sum_le_sum fun k _ => rank_anti (h k)

theorem weight_le (U : List κ) (s : Store κ π) : weight U s ≤ 2 * U.length := by
  induction U with
  | nil => simp [weight]
  | cons k U ih =>
    have hk := rank_le_two (s.value k)
    simp only [weight, List.map_cons, List.sum_cons, List.length_cons] at ih ⊢
    omega

theorem le_setValue [DecidableEq κ] {s : Store κ π} {e : κ} {v : Value π} (h : s.value e ≤ v) (k : κ) :
    s.value k ≤ (s.setValue e v).value k := by
  by_cases hk : k = e
  · subst hk
    simpa using h
  · rw [value_setValue_of_ne s v hk]

/-- Raising a listed element uses up weight. -/
theorem weight_setValue_lt [DecidableEq κ] {U : List κ} {s : Store κ π} {e : κ} {v : Value π} (he : e ∈ U)
    (hle : s.value e ≤ v) (hlt : v.rank < (s.value e).rank) :
    weight U (s.setValue e v) < weight U s := by
  refine List.sum_lt_sum _ _ (fun k _ => rank_anti (le_setValue hle k)) ⟨e, he, ?_⟩
  simpa using hlt

/-- Folding a raise over a list: if each call keeps `I`, moves values up and establishes the upward
closed `φ` at its element, the fold keeps `I`, moves values up and establishes `φ` everywhere. -/
theorem foldl_raise {U : List κ} {f : Store κ π → κ → Store κ π} {I : Store κ π → Prop}
    {φ : κ → Store κ π → Prop}
    (hI : ∀ s e, I s → e ∈ U → I (f s e) ∧ (∀ k, s.value k ≤ (f s e).value k) ∧ φ e (f s e))
    (hφ : ∀ s t e, (∀ k, s.value k ≤ t.value k) → φ e s → φ e t) (es : List κ) (s : Store κ π)
    (hU : ∀ e ∈ es, e ∈ U) (hs : I s) :
    I (es.foldl f s) ∧ (∀ k, s.value k ≤ (es.foldl f s).value k) ∧ ∀ e ∈ es, φ e (es.foldl f s) :=
  Fold.foldl_establish (fun _ _ => le_rfl) (fun _ _ _ h h' k => (h k).trans (h' k)) hφ es s
    (fun s e he hs => hI s e hs (hU e he)) hs

section Raise

variable [DecidableEq κ] {U : List κ} {C : κ → κ → Prop}

/-- Setting an element to `v` leaves only its own raise to `v` pending. -/
theorem Good.setValue {P : κ → Value π → Prop} {s : Store κ π} {e : κ} {v : Value π}
    (h : Good U C P s) (hv : s.value e ≤ v) :
    Good U C (fun a u => P a u ∨ (a = e ∧ u = v)) (s.setValue e v) where
  closed := h.closed
  tracked a b hab := by
    rcases h.tracked a b hab with hEq | htop | hmem
    · exact Or.inl hEq
    · exact Or.inr (Or.inl (top_le_iff.mp (htop ▸ le_setValue hv a)))
    · exact Or.inr (Or.inr hmem)
  holds a b hab hP := by
    by_cases ha : a = e
    · subst ha
      exact absurd (Or.inr ⟨rfl, by simp⟩) hP
    · rw [value_setValue_of_ne s v ha] at hP ⊢
      exact (h.holds a b hab fun hp => hP (Or.inl hp)).trans (le_setValue hv b)

/-- Once everything recorded above `e` has reached `v`, the raise of `e` to `v` is settled. -/
theorem Good.settle {P : κ → Value π → Prop} {s : Store κ π} {e : κ} {v : Value π}
    (h : Good U C (fun a u => P a u ∨ (a = e ∧ u = v)) s)
    (hv : ∀ b, C e b → v ≤ s.value b ∨ e = b) : Good U C P s where
  closed := h.closed
  tracked := h.tracked
  holds a b hab hP := by
    by_cases hpend : a = e ∧ s.value a = v
    · obtain ⟨rfl, rfl⟩ := hpend
      rcases hv b hab with hb | rfl
      · exact hb
      · exact le_rfl
    · exact h.holds a b hab (by rintro (hp | hp) <;> contradiction)

/-- A raised element need not remember what is above it. -/
theorem Good.forget {P : κ → Value π → Prop} {s : Store κ π} {e : κ} (h : Good U C P s)
    (he : s.value e = .top) : Good U C P (s.setLessThan e []) where
  closed a b hb := by
    by_cases ha : a = e
    · subst ha
      simp [Store.setLessThan] at hb
    · exact h.closed a b (by simpa [Store.setLessThan, Function.update_of_ne ha] using hb)
  tracked a b hab := by
    by_cases ha : a = e
    · subst ha
      exact Or.inr (Or.inl he)
    · simpa [Store.setLessThan, Function.update_of_ne ha] using h.tracked a b hab
  holds := h.holds

/-- **`makeTop` raises its element and keeps the constraints.** -/
theorem makeTop_spec : ∀ (n : ℕ) (P : κ → Value π → Prop) (s : Store κ π) (e : κ),
    weight U s < n → e ∈ U → Good U C P s →
    Good U C P (makeTop n s e) ∧ (∀ k, s.value k ≤ (makeTop n s e).value k) ∧
      (makeTop n s e).value e = .top
  | 0, _, _, _, hw, _, _ => absurd hw (Nat.not_lt_zero _)
  | n + 1, P, s, e, hw, he, h => by
    by_cases htop : s.value e = .top
    · simpa [makeTop, htop] using h
    have hunfold : makeTop (n + 1) s e
        = (((s.setValue e .top).lessThan e).foldl (makeTop n) (s.setValue e .top)).setLessThan
            e [] := by
      rw [makeTop]
      cases hv : s.value e <;> simp_all
    have hrank : (Value.top : Value π).rank < (s.value e).rank := by
      cases hv : s.value e <;> simp_all [rank]
    have hlt : weight U (s.setValue e .top) < n := by
      have := weight_setValue_lt (U := U) he (le_top _) hrank
      omega
    -- the fold raises everything above `e`, with the raise of `e` itself pending
    obtain ⟨⟨hgood, -⟩, hle, hall⟩ :=
      foldl_raise (U := U) (f := makeTop n)
        (I := fun t => Good U C (fun a u => P a u ∨ (a = e ∧ u = .top)) t ∧ weight U t < n)
        (φ := fun k t => t.value k = .top)
        (fun t k ht hk => by
          obtain ⟨h1, h2, h3⟩ := makeTop_spec n _ t k ht.2 hk ht.1
          exact ⟨⟨h1, (weight_anti U h2).trans_lt ht.2⟩, h2, h3⟩)
        (fun t t' k htt' hk => top_le_iff.mp (hk ▸ htt' k))
        ((s.setValue e .top).lessThan e) (s.setValue e .top) (fun b hb => h.closed e b hb)
        ⟨h.setValue (le_top _), hlt⟩
    have hetop : (((s.setValue e .top).lessThan e).foldl (makeTop n)
        (s.setValue e .top)).value e = .top := by
      have := hle e
      rwa [value_setValue_self, top_le_iff] at this
    rw [hunfold]
    refine ⟨Good.forget (hgood.settle fun b hab => ?_) hetop,
      fun k => (le_setValue (le_top _) k).trans (hle k), hetop⟩
    rcases h.tracked e b hab with hEq | ht | hmem
    · exact Or.inr hEq
    · exact absurd ht htop
    · exact Or.inl (top_le_iff.mpr (hall b hmem))

/-- **`lowerBoundPoint` raises its element to the point at least, and keeps the constraints.** -/
theorem lowerBoundPoint_spec [DecidableEq π] :
    ∀ (n : ℕ) (P : κ → Value π → Prop) (s : Store κ π) (e : κ) (p : π),
    weight U s < n → e ∈ U → Good U C P s →
    Good U C P (lowerBoundPoint n s e p) ∧
      (∀ k, s.value k ≤ (lowerBoundPoint n s e p).value k) ∧
      .point p ≤ (lowerBoundPoint n s e p).value e
  | 0, _, _, _, _, hw, _, _ => absurd hw (Nat.not_lt_zero _)
  | n + 1, P, s, e, p, hw, he, h => by
    cases hv : s.value e with
    | bottom =>
      have hle0 : s.value e ≤ .point p := by simp [hv]
      have hlt : weight U (s.setValue e (.point p)) < n := by
        have := weight_setValue_lt (U := U) (s := s) (v := .point p) he hle0 (by simp [hv, rank])
        omega
      obtain ⟨⟨hgood, -⟩, hle, hall⟩ :=
        foldl_raise (U := U) (f := fun t k => lowerBoundPoint n t k p)
          (I := fun t => Good U C (fun a u => P a u ∨ (a = e ∧ u = .point p)) t ∧ weight U t < n)
          (φ := fun k t => .point p ≤ t.value k)
          (fun t k ht hk => by
            obtain ⟨h1, h2, h3⟩ := lowerBoundPoint_spec n _ t k p ht.2 hk ht.1
            exact ⟨⟨h1, (weight_anti U h2).trans_lt ht.2⟩, h2, h3⟩)
          (fun t t' k htt' hk => hk.trans (htt' k))
          ((s.setValue e (.point p)).lessThan e) (s.setValue e (.point p))
          (fun b hb => h.closed e b hb) ⟨h.setValue hle0, hlt⟩
      simp only [lowerBoundPoint, hv]
      refine ⟨hgood.settle fun b hab => ?_, fun k => (le_setValue hle0 k).trans (hle k), ?_⟩
      · rcases h.tracked e b hab with hEq | ht | hmem
        · exact Or.inr hEq
        · simp [hv] at ht
        · exact Or.inl (hall b hmem)
      · simpa using hle e
    | point q =>
      by_cases hpq : p = q
      · simpa [lowerBoundPoint, hv, hpq] using h
      · obtain ⟨h1, h2, h3⟩ := makeTop_spec (n + 1) P s e hw he h
        simp only [lowerBoundPoint, hv, hpq, if_false]
        exact ⟨h1, h2, by simp [h3]⟩
    | top => simpa [lowerBoundPoint, hv] using h

omit [DecidableEq κ] in
/-- Fewer constraints are respected all the more. -/
theorem Good.mono {C' : κ → κ → Prop} {P : κ → Value π → Prop} {s : Store κ π}
    (h : Good U C P s) (hC : ∀ a b, C' a b → C a b) : Good U C' P s where
  closed := h.closed
  tracked a b hab := h.tracked a b (hC a b hab)
  holds a b hab := h.holds a b (hC a b hab)

omit [DecidableEq κ] in
/-- Recording a constraint that already holds. -/
theorem Good.record {P : κ → Value π → Prop} {s : Store κ π} {src dst : κ} (h : Good U C P s)
    (htr : src = dst ∨ s.value src = .top ∨ dst ∈ s.lessThan src)
    (hle : s.value src ≤ s.value dst) :
    Good U (fun a b => C a b ∨ (a = src ∧ b = dst)) P s where
  closed := h.closed
  tracked a b hab := by
    rcases hab with hab | ⟨rfl, rfl⟩
    · exact h.tracked a b hab
    · exact htr
  holds a b hab hP := by
    rcases hab with hab | ⟨rfl, rfl⟩
    · exact h.holds a b hab hP
    · exact hle

theorem Good.pushLessThan {P : κ → Value π → Prop} {s : Store κ π} {src dst : κ}
    (h : Good U C P s) (hdst : dst ∈ U) : Good U C P (s.pushLessThan src dst) where
  closed a b hb := by
    by_cases ha : a = src
    · subst ha
      rcases (by simpa [Store.pushLessThan, Store.setLessThan] using hb : b = dst ∨ b ∈ s.lessThan a)
        with rfl | hb
      · exact hdst
      · exact h.closed a b hb
    · exact h.closed a b (by
        simpa [Store.pushLessThan, Store.setLessThan, Function.update_of_ne ha] using hb)
  tracked a b hab := by
    rcases h.tracked a b hab with hEq | ht | hmem
    · exact Or.inl hEq
    · exact Or.inr (Or.inl ht)
    · refine Or.inr (Or.inr ?_)
      by_cases ha : a = src
      · subst ha
        simp [Store.pushLessThan, Store.setLessThan, hmem]
      · simpa [Store.pushLessThan, Store.setLessThan, Function.update_of_ne ha] using hmem
  holds := h.holds

theorem mem_lessThan_pushLessThan (s : Store κ π) (src dst : κ) :
    dst ∈ (s.pushLessThan src dst).lessThan src := by
  simp [Store.pushLessThan, Store.setLessThan]

/-- **`coerce` adds its constraint to the ones the store respects.** -/
theorem coerce_spec [DecidableEq π] {n : ℕ} {s : Store κ π} {src dst : κ}
    (hn : 2 * U.length < n) (hdst : dst ∈ U) (h : Good U C Quiet s) :
    Good U (fun a b => C a b ∨ (a = src ∧ b = dst)) Quiet (coerce n s src dst) ∧
      ∀ k, s.value k ≤ (coerce n s src dst).value k := by
  have hw : ∀ t : Store κ π, weight U t < n := fun t => (weight_le U t).trans_lt hn
  by_cases hst : src = dst
  · simp only [coerce, hst, if_true, le_refl, implies_true, and_true]
    exact h.record (Or.inl rfl) le_rfl
  cases hv : s.value src with
  | bottom =>
    simp only [coerce, hst, if_false, hv, value_pushLessThan, le_refl, implies_true, and_true]
    exact (h.pushLessThan hdst).record (Or.inr (Or.inr (mem_lessThan_pushLessThan s src dst)))
      (by simp [hv])
  | point p =>
    simp only [coerce, hst, if_false, hv]
    -- the new constraint is tracked at once; it is pending at the point `p` until `dst` is raised
    have hpend : Good U (fun a b => C a b ∨ (a = src ∧ b = dst))
        (fun a u => Quiet a u ∨ (a = src ∧ u = .point p)) (s.pushLessThan src dst) :=
      { closed := (h.pushLessThan hdst).closed
        tracked := fun a b hab => by
          rcases hab with hab | ⟨rfl, rfl⟩
          · exact (h.pushLessThan hdst).tracked a b hab
          · exact Or.inr (Or.inr (mem_lessThan_pushLessThan s a b))
        holds := fun a b hab hP => by
          rcases hab with hab | ⟨rfl, rfl⟩
          · exact h.holds a b hab (fun hf => hf)
          · exact absurd (Or.inr ⟨rfl, hv⟩) hP }
    obtain ⟨hgood, hle, hp⟩ :=
      lowerBoundPoint_spec n _ (s.pushLessThan src dst) dst p (hw _) hdst hpend
    refine ⟨⟨hgood.closed, hgood.tracked, fun a b hab _ => ?_⟩, hle⟩
    by_cases hpa : a = src ∧ (lowerBoundPoint n (s.pushLessThan src dst) dst p).value a = .point p
    · obtain ⟨rfl, hval⟩ := hpa
      rcases hab with hab | ⟨-, rfl⟩
      · -- an older constraint out of `src`: it held before and `src` has not moved
        have hold := h.holds a b hab (fun hf => hf)
        rw [hval, ← hv]
        exact hold.trans (hle b)
      · rwa [hval]
    · exact hgood.holds a b hab (by rintro (hf | hf) <;> contradiction)
  | top =>
    obtain ⟨hgood, hle, htop⟩ := makeTop_spec (U := U) (C := C) n Quiet s dst (hw s) hdst h
    simp only [coerce, hst, if_false, hv]
    have hsrc : (makeTop n s dst).value src = .top := top_le_iff.mp (hv ▸ hle src)
    exact ⟨hgood.record (Or.inr (Or.inl hsrc)) (by simp [htop]), hle⟩

end Raise

/-- A fresh store respects the empty set of constraints. -/
theorem good_init (U : List κ) (v : κ → Value π) :
    Good U (fun _ _ => False) Quiet { value := v, lessThan := fun _ => [] } where
  closed _ _ h := by simp at h
  tracked _ _ h := h.elim
  holds _ _ h := h.elim

end MLton.FlatLattice
