import Mathlib.Data.Option.Basic
import Mathlib.Logic.Relation

/-!
# Machinery/Simulation — machines that run in step, one of them with steps of its own

Two machines that take one step at a time, or none.  Where each step of the first is matched by one or more of the
second, and the second is stuck where the first is, both reach the same: what the first reaches is matched
(`Steps.reaches`), and all that the second reaches is on the way to something that is (`Steps.reaches_of`).  Where the
second has steps of its own before it is stuck (`KeepsUp`), the two still halt alike.
-/

namespace MLton.Simulation

variable {σ τ : Type*} {step : σ → Option σ} {step' : τ → Option τ}

/-- One step. -/
abbrev Step (step : σ → Option σ) (s s' : σ) : Prop := step s = some s'

/-- Some steps, maybe none. -/
abbrev Steps (step : σ → Option σ) : σ → σ → Prop := Relation.ReflTransGen (Step step)

/-- One step or more. -/
abbrev Steps₁ (step : σ → Option σ) : σ → σ → Prop := Relation.TransGen (Step step)

/-- **The second machine runs in step with the first** from states that match, where the first has the property. -/
structure InStep (step : σ → Option σ) (step' : τ → Option τ) (I : σ → Prop) (R : σ → τ → Prop) : Prop where
  kept : ∀ {s s₁}, I s → step s = some s₁ → I s₁
  next : ∀ {s s₁ s'}, I s → R s s' → step s = some s₁ → ∃ s₁', Steps₁ step' s' s₁' ∧ R s₁ s₁'
  stuck : ∀ {s s'}, I s → R s s' → step s = none → step' s' = none

variable {I : σ → Prop} {R : σ → τ → Prop} {s s₁ : σ} {s' u' : τ}

theorem InStep.kept_steps (h : InStep step step' I R) (hI : I s) (hs : Steps step s s₁) : I s₁ := by
  induction hs with
  | refl => exact hI
  | tail _ hstep ih => exact h.kept ih hstep

/-- Machines that match are stuck together. -/
theorem InStep.stuck_iff (h : InStep step step' I R) (hI : I s) (hR : R s s') : step s = none ↔ step' s' = none := by
  refine ⟨h.stuck hI hR, fun hstuck => ?_⟩
  cases hstep : step s with
  | none => rfl
  | some s₁ =>
    obtain ⟨s₁', hs₁', -⟩ := h.next hI hR hstep
    obtain ⟨u', hu', -⟩ := Relation.TransGen.head'_iff.mp hs₁'
    cases hstuck.symm.trans hu'

/-- **What the first machine reaches is matched.** -/
theorem InStep.reaches (h : InStep step step' I R) (hI : I s) (hR : R s s') (hs : Steps step s s₁) :
    ∃ s₁', Steps step' s' s₁' ∧ R s₁ s₁' := by
  induction hs with
  | refl => exact ⟨s', .refl, hR⟩
  | tail hs hstep ih =>
    obtain ⟨u', hu', hR'⟩ := ih
    obtain ⟨v', hv', hR''⟩ := h.next (h.kept_steps hI hs) hR' hstep
    exact ⟨v', hu'.trans hv'.to_reflTransGen, hR''⟩

/-- The machine goes one way only. -/
theorem steps_of_step {a b c : τ} (hab : step' a = some b) (hac : Steps₁ step' a c) : Steps step' b c := by
  obtain ⟨b', hab', hbc⟩ := Relation.TransGen.head'_iff.mp hac
  obtain rfl := Option.some.inj (hab.symm.trans hab')
  exact hbc

/-- **What the second machine reaches is on the way to something that matches.** -/
theorem InStep.reaches_of (h : InStep step step' I R) (hI : I s) (hR : R s s') (hu : Steps step' s' u') :
    ∃ s₁ s₁', Steps step s s₁ ∧ R s₁ s₁' ∧ Steps step' u' s₁' := by
  induction hu with
  | refl => exact ⟨s, s', .refl, hR, .refl⟩
  | @tail u' v' _ hstep ih =>
    obtain ⟨s₁, s₁', hs, hR₁, hu'⟩ := ih
    obtain heq | ⟨w', huw, hw⟩ := Relation.ReflTransGen.cases_head hu'
    · -- the second machine is at a state that matches, so the first one goes on as well
      subst heq
      cases hnext : step s₁ with
      | none =>
        cases (h.stuck (h.kept_steps hI hs) hR₁ hnext).symm.trans hstep
      | some s₂ =>
        obtain ⟨s₂', hs₂', hR₂⟩ := h.next (h.kept_steps hI hs) hR₁ hnext
        exact ⟨s₂, s₂', hs.tail hnext, hR₂, steps_of_step hstep hs₂'⟩
    · obtain rfl := Option.some.inj (hstep.symm.trans huw)
      exact ⟨s₁, s₁', hs, hR₁, hw⟩

/-! ## A machine that is late to be stuck

The second machine may have steps of its own in front of a state where it is stuck with the first one.  What is seen of
the states stays the same. -/

section KeepsUp

variable {ο : Type*} {see : σ → ο} {see' : τ → ο}

/-- **The second machine keeps up with the first** from states that match, where the first has the property: each step
is matched, and where the first is stuck the second gets stuck, with the same to be seen. -/
structure KeepsUp (step : σ → Option σ) (step' : τ → Option τ) (see : σ → ο) (see' : τ → ο) (I : σ → Prop)
    (R : σ → τ → Prop) : Prop where
  kept : ∀ {s s₁}, I s → step s = some s₁ → I s₁
  seen : ∀ {s s'}, R s s' → see' s' = see s
  next : ∀ {s s₁ s'}, I s → R s s' → step s = some s₁ → ∃ s₁', Steps₁ step' s' s₁' ∧ R s₁ s₁'
  stuck : ∀ {s s'}, I s → R s s' → step s = none → ∃ u', Steps step' s' u' ∧ step' u' = none ∧ see' u' = see s

/-- States that match, or at which both are stuck. -/
def Level (step : σ → Option σ) (step' : τ → Option τ) (see : σ → ο) (see' : τ → ο) (R : σ → τ → Prop) (s : σ)
    (s' : τ) : Prop :=
  R s s' ∨ step s = none ∧ step' s' = none ∧ see' s' = see s

variable (h : KeepsUp step step' see see' I R)

include h

theorem KeepsUp.kept_steps (hI : I s) (hs : Steps step s s₁) : I s₁ := by
  induction hs with
  | refl => exact hI
  | tail _ hstep ih => exact h.kept ih hstep

theorem KeepsUp.seen_of_level (hl : Level step step' see see' R s s') : see' s' = see s :=
  hl.elim h.seen fun h => h.2.2

/-- **What the first machine reaches is matched.** -/
theorem KeepsUp.reaches (hI : I s) (hR : R s s') (hs : Steps step s s₁) : ∃ s₁', Steps step' s' s₁' ∧ R s₁ s₁' := by
  induction hs with
  | refl => exact ⟨s', .refl, hR⟩
  | tail hs hstep ih =>
    obtain ⟨u', hu', hR'⟩ := ih
    obtain ⟨v', hv', hR''⟩ := h.next (h.kept_steps hI hs) hR' hstep
    exact ⟨v', hu'.trans hv'.to_reflTransGen, hR''⟩

/-- **What the second machine reaches is on the way to a state that is level with one of the first**, by induction on
its steps: at such a state both go on, or both are stuck soon. -/
theorem KeepsUp.reaches_of (hI : I s) (hR : R s s') (hu : Steps step' s' u') :
    ∃ s₁ s₁', Steps step s s₁ ∧ Level step step' see see' R s₁ s₁' ∧ Steps step' u' s₁' := by
  induction hu with
  | refl => exact ⟨s, s', .refl, .inl hR, .refl⟩
  | @tail u' v' _ hstep ih =>
    obtain ⟨s₁, s₁', hs, hlevel, hu'⟩ := ih
    obtain heq | ⟨w', huw, hw⟩ := Relation.ReflTransGen.cases_head hu'
    · subst heq
      obtain hR₁ | ⟨-, hstuck, -⟩ := hlevel
      · cases hnext : step s₁ with
        | none =>
          obtain ⟨w', hw', hstuck, hsee⟩ := h.stuck (h.kept_steps hI hs) hR₁ hnext
          obtain heq | ⟨x', hx, hxw⟩ := Relation.ReflTransGen.cases_head hw'
          · subst heq
            cases hstuck.symm.trans hstep
          · obtain rfl := Option.some.inj (hstep.symm.trans hx)
            exact ⟨s₁, w', hs, .inr ⟨hnext, hstuck, hsee⟩, hxw⟩
        | some s₂ =>
          obtain ⟨s₂', hs₂', hR₂⟩ := h.next (h.kept_steps hI hs) hR₁ hnext
          exact ⟨s₂, s₂', hs.tail hnext, .inl hR₂, steps_of_step hstep hs₂'⟩
      · cases hstuck.symm.trans hstep
    · obtain rfl := Option.some.inj (hstep.symm.trans huw)
      exact ⟨s₁, s₁', hs, hlevel, hw⟩

/-- **The machines halt alike**: where the first gets stuck, the second does, with the same to be seen. -/
theorem KeepsUp.halts (hI : I s) (hR : R s s') (hs : Steps step s s₁) (hstuck : step s₁ = none) :
    ∃ s₁', Steps step' s' s₁' ∧ step' s₁' = none ∧ see' s₁' = see s₁ := by
  obtain ⟨u', hu', hR'⟩ := h.reaches hI hR hs
  obtain ⟨w', hw', hstuck', hsee⟩ := h.stuck (h.kept_steps hI hs) hR' hstuck
  exact ⟨w', hu'.trans hw', hstuck', hsee⟩

theorem KeepsUp.halts_of (hI : I s) (hR : R s s') (hu : Steps step' s' u') (hstuck : step' u' = none) :
    ∃ s₁, Steps step s s₁ ∧ step s₁ = none ∧ see' u' = see s₁ := by
  obtain ⟨s₁, s₁', hs, hlevel, hu'⟩ := h.reaches_of hI hR hu
  obtain heq | ⟨w', huw, -⟩ := Relation.ReflTransGen.cases_head hu'
  · subst heq
    refine ⟨s₁, hs, ?_, h.seen_of_level hlevel⟩
    obtain hR₁ | ⟨hnone, -⟩ := hlevel
    · by_contra hsome
      obtain ⟨s₂, hs₂⟩ := Option.ne_none_iff_exists'.mp hsome
      obtain ⟨s₂', hs₂', -⟩ := h.next (h.kept_steps hI hs) hR₁ hs₂
      obtain ⟨w', hw', -⟩ := Relation.TransGen.head'_iff.mp hs₂'
      cases hstuck.symm.trans hw'
    · exact hnone
  · cases hstuck.symm.trans huw

end KeepsUp

/-! ## Options that correspond -/

section Options

variable {α β γ δ : Type*} {r : α → β → Prop} {r' : γ → δ → Prop} {o : Option α} {o' : Option β}

/-- Both do the same, if anything. -/
theorem rel_bind {f : α → Option γ} {f' : β → Option δ} (h : Option.Rel r o o')
    (hf : ∀ {a b}, r a b → Option.Rel r' (f a) (f' b)) : Option.Rel r' (o.bind f) (o'.bind f') := by
  cases h with
  | some h => exact hf h
  | none => exact .none

theorem rel_map {f : α → γ} {f' : β → δ} (h : Option.Rel r o o') (hf : ∀ {a b}, r a b → r' (f a) (f' b)) :
    Option.Rel r' (o.map f) (o'.map f') := by
  cases h with
  | some h => exact .some (hf h)
  | none => exact .none

theorem exists_of_rel {a : α} (h : Option.Rel r o o') (ho : o = some a) : ∃ b, o' = some b ∧ r a b := by
  subst ho
  cases h with
  | some h => exact ⟨_, rfl, h⟩

theorem exists_of_rel_right {b : β} (h : Option.Rel r o o') (ho : o' = some b) : ∃ a, o = some a ∧ r a b := by
  subst ho
  cases h with
  | some h => exact ⟨_, rfl, h⟩

end Options

end MLton.Simulation
