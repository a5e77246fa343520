import Mathlib.Data.List.Forall2
import Mathlib.Data.Prod.Basic
import Mathlib.Order.Basic

/-!
# Machinery/Raises — computations over a state that may raise

What a computation changed before it raised stays changed.  `x.Ends s Q E` says how `x` ends from the
state `s`: with a value and a state that satisfy `Q`, or with an exception and a state that satisfy `E`.
The rules take a computation apart from the front.
-/

namespace MLton

/-- A computation over a state: a value or an exception, and the state it leaves. -/
def Raises (ε σ α : Type) := σ → Except ε α × σ

namespace Raises

variable {ε σ τ α β : Type}

instance : Monad (Raises ε σ) where
  pure a := fun s => (.ok a, s)
  bind x f := fun s => match x s with
    | (.ok a, s') => f a s'
    | (.error e, s') => (.error e, s')

/-- Raise an exception. -/
def raise (e : ε) : Raises ε σ α := fun s => (.error e, s)

/-- Go on with the exception, if one is raised. -/
def handle (x : Raises ε σ α) (f : ε → Raises ε σ α) : Raises ε σ α := fun s => match x s with
  | (.ok a, s') => (.ok a, s')
  | (.error e, s') => f e s'

/-- The state. -/
def get : Raises ε σ σ := fun s => (.ok s, s)

/-- Change the state. -/
def modify (f : σ → σ) : Raises ε σ Unit := fun s => (.ok (), f s)

/-- What depends on no state. -/
def of (r : Except ε α) : Raises ε σ α := fun s => (r, s)

/-- A computation over a part of the state. -/
def zoom (part : σ → τ) (put : τ → σ → σ) (x : Raises ε τ α) : Raises ε σ α := fun s =>
  ((x (part s)).1, put (x (part s)).2 s)

/-- A computation for each element, in order. -/
def each (f : α → Raises ε σ β) : List α → Raises ε σ (List β)
  | [] => pure []
  | a :: l => do
    let b ← f a
    let bs ← each f l
    pure (b :: bs)

/-- How a computation ends. -/
def Ends (x : Raises ε σ α) (s : σ) (Q : α → σ → Prop) (E : ε → σ → Prop) : Prop :=
  match x s with
  | (.ok a, s') => Q a s'
  | (.error e, s') => E e s'

variable {x : Raises ε σ α} {f : α → Raises ε σ β} {s : σ} {Q Q' : α → σ → Prop} {R : β → σ → Prop}
  {E E' : ε → σ → Prop}

theorem Ends.mono (h : x.Ends s Q E) (hQ : ∀ a s', Q a s' → Q' a s') (hE : ∀ e s', E e s' → E' e s') :
    x.Ends s Q' E' := by
  unfold Ends at h ⊢
  split at h
  · exact hQ _ _ h
  · exact hE _ _ h

/-- It can only end with a value. -/
theorem Ends.eq_ok {a : α} {t : σ} (h : x.Ends s (fun b s' => b = a ∧ s' = t) fun _ _ => False) :
    x s = (.ok a, t) := by
  unfold Ends at h
  split at h
  · next hx =>
    obtain ⟨rfl, rfl⟩ := h
    exact hx
  · exact h.elim

/-- It can only end in an exception. -/
theorem Ends.eq_error {e : ε} {t : σ} (h : x.Ends s (fun _ _ => False) fun e' s' => e' = e ∧ s' = t) :
    x s = (.error e, t) := by
  unfold Ends at h
  split at h
  · exact h.elim
  · next hx =>
    obtain ⟨rfl, rfl⟩ := h
    exact hx

@[simp] theorem ends_pure {a : α} : (pure a : Raises ε σ α).Ends s Q E ↔ Q a s := Iff.rfl

@[simp] theorem ends_raise {e : ε} : (raise e : Raises ε σ α).Ends s Q E ↔ E e s := Iff.rfl

@[simp] theorem ends_get {Q : σ → σ → Prop} : (get : Raises ε σ σ).Ends s Q E ↔ Q s s := Iff.rfl

@[simp] theorem ends_modify {g : σ → σ} {Q : Unit → σ → Prop} :
    (modify g : Raises ε σ Unit).Ends s Q E ↔ Q () (g s) := Iff.rfl

@[simp] theorem ends_bind : (x >>= f).Ends s R E ↔ x.Ends s (fun a s' => (f a).Ends s' R E) E := by
  simp only [Ends, bind]
  cases x s with
  | mk r s' => cases r <;> rfl

@[simp] theorem ends_map {g : α → β} : (g <$> x).Ends s R E ↔ x.Ends s (fun a s' => R (g a) s') E := by
  change (x >>= fun a => pure (g a)).Ends s R E ↔ _
  simp only [ends_bind, ends_pure]

@[simp] theorem ends_handle {g : ε → Raises ε σ α} :
    (x.handle g).Ends s Q E ↔ x.Ends s Q fun e s' => (g e).Ends s' Q E := by
  simp only [Ends, handle]
  cases x s with
  | mk r s' => cases r <;> rfl

@[simp] theorem ends_zoom {part : σ → τ} {put : τ → σ → σ} {y : Raises ε τ α} :
    (zoom part put y).Ends s Q E ↔
      y.Ends (part s) (fun a t => Q a (put t s)) fun e t => E e (put t s) := by
  simp only [Ends, zoom]
  cases y (part s) with
  | mk r s' => cases r <;> rfl

@[simp] theorem ends_of_ok {a : α} : (of (.ok a) : Raises ε σ α).Ends s Q E ↔ Q a s := Iff.rfl

@[simp] theorem ends_of_error {e : ε} : (of (.error e) : Raises ε σ α).Ends s Q E ↔ E e s := Iff.rfl

theorem get_bind {g : σ → Raises ε σ β} : ((get : Raises ε σ σ) >>= g) s = g s s := rfl

/-- What ends the same goes on the same. -/
theorem bind_congr {y : Raises ε σ α} (h : x s = y s) : (x >>= f) s = (y >>= f) s := by
  simp only [bind, h]

theorem ends_ite {c : Prop} [Decidable c] {y : Raises ε σ α} :
    (if c then x else y).Ends s Q E ↔ (c → x.Ends s Q E) ∧ (¬ c → y.Ends s Q E) := by
  by_cases hc : c <;> simp [hc]

/-- **One after the other**: what is found out about an element stays true while the others follow. -/
theorem Ends.each {f : α → Raises ε σ β} {I : σ → Prop} {le : σ → σ → Prop} {P : α → β → σ → Prop}
    {E : ε → σ → Prop} (hrefl : ∀ s, le s s) (htrans : ∀ s₁ s₂ s₃, le s₁ s₂ → le s₂ s₃ → le s₁ s₃)
    (hP : ∀ a b s s', I s → P a b s → le s s' → P a b s') :
    ∀ {l : List α} {s : σ}, I s →
      (∀ a ∈ l, ∀ s', I s' → le s s' → (f a).Ends s' (fun b s'' => I s'' ∧ le s' s'' ∧ P a b s'') E) →
      (each f l).Ends s (fun bs s' => I s' ∧ le s s' ∧ List.Forall₂ (P · · s') l bs) E
  | [], s, hs, _ => ⟨hs, hrefl s, .nil⟩
  | a :: l, s, hs, hf => by
    rw [Raises.each, ends_bind]
    refine (hf a List.mem_cons_self s hs (hrefl s)).mono (fun b s₁ => ?_) fun _ _ h => h
    rintro ⟨hs₁, hle₁, hb⟩
    rw [ends_bind]
    have hrest : (Raises.each f l).Ends s₁
        (fun bs s' => I s' ∧ le s₁ s' ∧ List.Forall₂ (P · · s') l bs) E :=
      Ends.each hrefl htrans hP hs₁ fun a' ha' s' hs' hle' =>
        hf a' (List.mem_cons_of_mem _ ha') s' hs' (htrans _ _ _ hle₁ hle')
    refine hrest.mono (fun bs s₂ => ?_) fun _ _ h => h
    rintro ⟨hs₂, hle₂, hbs⟩
    exact ⟨hs₂, htrans _ _ _ hle₁ hle₂, .cons (hP a b s₁ s₂ hs₁ hb hle₂) hbs⟩

end Raises

end MLton

/-!
## Computations whose result is settled once they have returned

The states are ordered by how much has been found out.  A computation settles when, once it has returned, it
returns the same again in every later state and changes nothing: so do its parts, one after the other
(`Settles.bind`).  `x.RefinedBy stuck y` says that `y` does what `x` does wherever `x` is not cut off.
-/

namespace MLton

namespace Raises

variable {ε σ α β : Type}

/-! ## Settled results -/

section Settles

variable [Preorder σ] {I : σ → Prop} {x : Raises ε σ α} {f : α → Raises ε σ β} {a : α} {b : β} {s s' : σ}
  {P Q : α → σ → Prop} {R : β → σ → Prop}

/-- From this state on, the computation returns this and changes nothing. -/
def Settled (x : Raises ε σ α) (a : α) (s : σ) : Prop := ∀ s', s ≤ s' → x s' = (.ok a, s')

theorem Settled.mono (h : Settled x a s) (hle : s ≤ s') : Settled x a s' :=
  fun s'' hle' => h s'' (hle.trans hle')

theorem Settled.bind (hx : Settled x a s) (hf : Settled (f a) b s) : Settled (x >>= f) b s := by
  intro s' hle
  simp only [Bind.bind, hx s' hle]
  exact hf s' hle

/-- **The computation settles** with `P`, and keeps the invariant. -/
def Settles (I : σ → Prop) (x : Raises ε σ α) (s : σ) (P : α → σ → Prop) : Prop :=
  x.Ends s (fun a s' => I s' ∧ s ≤ s' ∧ Settled x a s' ∧ P a s') fun _ s' => I s' ∧ s ≤ s'

theorem Settles.pure (hs : I s) (h : P a s) : Settles I (Pure.pure a : Raises ε σ α) s P :=
  ⟨hs, le_refl s, fun _ _ => rfl, h⟩

theorem Settles.raise {e : ε} (hs : I s) : Settles I (Raises.raise e) s P := ⟨hs, le_refl s⟩

theorem Settles.of {r : Except ε α} (hs : I s) (h : ∀ a, r = .ok a → P a s) : Settles I (Raises.of r) s P := by
  cases r with
  | ok a => exact .pure hs (h a rfl)
  | error e => exact .raise hs

theorem Settles.mono (h : Settles I x s P) (hP : ∀ a s', I s' → s ≤ s' → P a s' → Q a s') :
    Settles I x s Q :=
  Ends.mono h (fun a s' ⟨hs, hle, hset, hp⟩ => ⟨hs, hle, hset, hP a s' hs hle hp⟩) fun _ _ h => h

/-- **One after the other**: the first part stays settled while the second one goes on. -/
theorem Settles.bind (hx : Settles I x s P)
    (hf : ∀ a s', I s' → s ≤ s' → P a s' → Settles I (f a) s' R) : Settles I (x >>= f) s R := by
  rw [Settles, ends_bind]
  refine Ends.mono hx (fun a s₁ => ?_) fun _ _ h => h
  rintro ⟨hs₁, hle, hset, hp⟩
  refine Ends.mono (hf a s₁ hs₁ hle hp) (fun b s₂ => ?_) fun e s₂ => ?_
  · rintro ⟨hs₂, hle', hset', hq⟩
    exact ⟨hs₂, hle.trans hle', (hset.mono hle').bind hset', hq⟩
  · rintro ⟨hs₂, hle'⟩
    exact ⟨hs₂, hle.trans hle'⟩

end Settles

/-! ## Loops that are cut off -/

section Refined

variable {stuck : ε} {x y : Raises ε σ α} {f g : α → Raises ε σ β}

/-- Where the first one comes to an end, the second one does the same. -/
def RefinedBy (stuck : ε) (x y : Raises ε σ α) : Prop := ∀ s, (x s).1 ≠ .error stuck → y s = x s

theorem RefinedBy.refl (x : Raises ε σ α) : RefinedBy stuck x x := fun _ _ => rfl

theorem RefinedBy.raise (y : Raises ε σ α) : RefinedBy stuck (Raises.raise stuck) y :=
  fun _ h => absurd rfl h

theorem RefinedBy.bind (hx : RefinedBy stuck x y) (hf : ∀ a, RefinedBy stuck (f a) (g a)) :
    RefinedBy stuck (x >>= f) (y >>= g) := by
  intro s hs
  simp only [Bind.bind] at hs ⊢
  cases hr : x s with
  | mk r s' =>
    rw [hr] at hs
    cases r with
    | ok a =>
      rw [hx s (by rw [hr]; exact nofun), hr]
      exact hf a s' hs
    | error e =>
      have hne : (x s).1 ≠ .error stuck := by
        rw [hr]
        exact fun heq => hs (congrArg Except.error (Except.error.inj heq))
      rw [hx s hne, hr]

end Refined

end Raises

end MLton
