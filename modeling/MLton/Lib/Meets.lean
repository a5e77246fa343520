import Mathlib.Control.Monad.Basic
import Mathlib.Data.List.Forall2
import Mathlib.Order.Basic

/-!
# Lib/Meets — computations that may raise, on a state that grows

`Meets m s G P` says all of what a computation does from a state: it returns if and only if `G` holds, the
state it leaves is not below the one it was given, and its result satisfies `P`.  The rules follow the
monad's operations, so a program that recurs on its parts has a condition built from theirs.
-/

namespace MLton

variable {S α β : Type} [Preorder S]

/-- The computation returns exactly when `G` holds, and then with `P`. -/
def Meets (m : StateT S Option α) (s : S) (G : Prop) (P : α → Prop) : Prop :=
  match m s with
  | none => ¬ G
  | some (a, s') => G ∧ s ≤ s' ∧ P a

namespace Meets

variable {m : StateT S Option α} {s : S} {G G' : Prop} {P Q : α → Prop}

theorem returns (h : Meets m s G P) (hG : G) : ∃ a s', m s = some (a, s') ∧ s ≤ s' ∧ P a := by
  unfold Meets at h
  split at h
  · exact absurd hG h
  · exact ⟨_, _, by assumption, h.2⟩

theorem of_returns (h : Meets m s G P) {a : α} {s' : S} (ha : m s = some (a, s')) : G ∧ P a := by
  unfold Meets at h
  rw [ha] at h
  exact ⟨h.1, h.2.2⟩

theorem raises (h : ¬ G) (hm : m s = none) : Meets m s G P := by
  unfold Meets
  rwa [hm]

theorem of_eq {a : α} {s' : S} (hm : m s = some (a, s')) (hG : G) (hs : s ≤ s') (ha : P a) :
    Meets m s G P := by
  unfold Meets
  rw [hm]
  exact ⟨hG, hs, ha⟩

theorem imp (h : Meets m s G P) (hG : G ↔ G') (hP : ∀ a, P a → Q a) : Meets m s G' Q := by
  unfold Meets at h ⊢
  split at h
  · exact fun h' => h (hG.mpr h')
  · exact ⟨hG.mp h.1, h.2.1, hP _ h.2.2⟩

theorem congr (h : Meets m s G P) (hG : G ↔ G') : Meets m s G' P := h.imp hG fun _ ha => ha

theorem pure {a : α} (ha : P a) : Meets (Pure.pure a) s True P := ⟨trivial, le_rfl, ha⟩

/-- **Sequence**: both parts return. -/
theorem bind {f : α → StateT S Option β} {R : β → Prop} (h : Meets m s G P)
    (hf : ∀ a s', s ≤ s' → P a → Meets (f a) s' G' R) : Meets (m >>= f) s (G ∧ G') R := by
  have hbind : (m >>= f) s = (m s).bind fun p => f p.1 p.2 := rfl
  unfold Meets at h ⊢
  rw [hbind]
  cases hm : m s with
  | none =>
    rw [hm] at h
    exact fun hG => h hG.1
  | some p =>
    obtain ⟨a, s'⟩ := p
    rw [hm] at h
    obtain ⟨hG, hs, ha⟩ := h
    have hfa := hf a s' hs ha
    unfold Meets at hfa
    rw [Option.bind_some]
    cases hb : f a s' with
    | none =>
      rw [hb] at hfa
      exact fun hG => hfa hG.2
    | some q =>
      rw [hb] at hfa
      exact ⟨⟨hG, hfa.1⟩, hs.trans hfa.2.1, hfa.2.2⟩

/-- A continuation that always returns. -/
theorem map {f : α → β} {R : β → Prop} (h : Meets m s G P) (hf : ∀ a, P a → R (f a)) :
    Meets (m >>= fun a => Pure.pure (f a)) s G R :=
  (h.bind fun a _ _ ha => Meets.pure (hf a ha)).congr (and_iff_left trivial)

theorem lift {o : Option α} (hG : G ↔ o.isSome) (ha : ∀ a, o = some a → P a) :
    Meets (liftM o : StateT S Option α) s G P := by
  cases o with
  | none => exact raises (fun h => absurd (hG.mp h) nofun) rfl
  | some a => exact of_eq rfl (hG.mpr rfl) le_rfl (ha a rfl)

theorem lift_some_bind {a : α} {f : α → StateT S Option β} {R : β → Prop} (h : Meets (f a) s G R) :
    Meets ((liftM (some a) : StateT S Option α) >>= f) s G R := h

theorem lift_none_bind {f : α → StateT S Option β} {R : β → Prop} (h : ¬ G) :
    Meets ((liftM (none : Option α) : StateT S Option α) >>= f) s G R := h

/-- **A list of computations**: every one returns. -/
theorem mapM {f : α → StateT S Option β} {C : α → Prop} {R : α → β → Prop} :
    ∀ {xs : List α} {s : S}, (∀ x ∈ xs, ∀ s', s ≤ s' → Meets (f x) s' (C x) (R x)) →
      Meets (xs.mapM f) s (∀ x ∈ xs, C x) (List.Forall₂ R xs)
  | [], s, _ => by
    rw [List.mapM_nil]
    exact (Meets.pure List.Forall₂.nil).congr (by simp)
  | x :: xs, s, h => by
    obtain ⟨hx, hxs⟩ := List.forall_mem_cons.mp h
    rw [List.mapM_cons]
    refine Meets.congr (hx s le_rfl |>.bind fun b s' hs hb => ?_) List.forall_mem_cons.symm
    refine (mapM fun y hy s'' hs'' => hxs y hy s'' (hs.trans hs'')).map fun bs hbs => ?_
    exact List.Forall₂.cons hb hbs

end Meets

end MLton
