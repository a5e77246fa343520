import Mathlib.Data.List.Basic

/-!
# Machinery/Sweep — sweeping over a list until nothing changes

A step looks at one entry and either leaves the state alone or changes it and raises a flag.  `sweeps`
runs the step over the whole list again and again, until a sweep raises no flag.  If every change
lowers a measure, the sweeps end in a state that every step leaves alone (`sweeps_settled`).
-/

namespace MLton.Sweep

variable {σ β : Type*} {g : σ × Bool → β → σ × Bool} {I : σ → Prop} {μ : σ → ℕ}

/-- Sweep until nothing changes.  The number bounds the sweeps. -/
def sweeps (g : σ × Bool → β → σ × Bool) (l : List β) : ℕ → σ → σ
  | 0, s => s
  | n + 1, s =>
    let (s, changed) := l.foldl g (s, false)
    if changed then sweeps g l n s else s

/-- The step keeps `I`, and it changes nothing or raises the flag and lowers `μ`. -/
def Lowers (g : σ × Bool → β → σ × Bool) (I : σ → Prop) (μ : σ → ℕ) (b : β) : Prop :=
  ∀ s c, I s → I (g (s, c) b).1 ∧
    (g (s, c) b = (s, c) ∨ ((g (s, c) b).2 = true ∧ μ (g (s, c) b).1 < μ s))

/-- Two steps at one entry are a step. -/
theorem Lowers.comp {g₁ g₂ : σ × Bool → β → σ × Bool} {b : β} (h₁ : Lowers g₁ I μ b)
    (h₂ : Lowers g₂ I μ b) : Lowers (fun a b => g₂ (g₁ a b) b) I μ b := by
  intro s c hs
  obtain ⟨hI₁, heq₁ | ⟨hflag₁, hlt₁⟩⟩ := h₁ s c hs
  · simp only [heq₁]
    exact h₂ s c hs
  · obtain ⟨hI₂, heq₂ | ⟨hflag₂, hlt₂⟩⟩ := h₂ (g₁ (s, c) b).1 (g₁ (s, c) b).2 hI₁
    · exact ⟨hI₂, Or.inr (by simpa only [heq₂] using ⟨hflag₁, hlt₁⟩)⟩
    · exact ⟨hI₂, Or.inr ⟨hflag₂, Nat.lt_trans hlt₂ hlt₁⟩⟩

/-- One sweep changes nothing, or raises the flag and lowers the measure. -/
theorem foldl_lowers : ∀ (l : List β), (∀ b ∈ l, Lowers g I μ b) → ∀ s c, I s →
    I (l.foldl g (s, c)).1 ∧
      ((l.foldl g (s, c) = (s, c) ∧ ∀ b ∈ l, g (s, c) b = (s, c)) ∨
        ((l.foldl g (s, c)).2 = true ∧ μ (l.foldl g (s, c)).1 < μ s))
  | [], _, _, _, hs => ⟨hs, Or.inl ⟨rfl, by simp⟩⟩
  | b :: l, hl, s, c, hs => by
    obtain ⟨hI, hb⟩ := hl b (by simp) s c hs
    have hrest : ∀ x ∈ l, Lowers g I μ x := fun x hx => hl x (List.mem_cons_of_mem _ hx)
    rw [List.foldl_cons]
    obtain heq | ⟨hflag, hlt⟩ := hb
    · obtain ⟨hI', h⟩ := foldl_lowers l hrest s c hs
      rw [heq]
      exact ⟨hI', h.imp (fun h => ⟨h.1, by simpa [heq] using h.2⟩) id⟩
    · obtain ⟨hI', h⟩ := foldl_lowers l hrest (g (s, c) b).1 (g (s, c) b).2 hI
      refine ⟨hI', Or.inr ?_⟩
      obtain ⟨heq, -⟩ | ⟨hflag', hlt'⟩ := h
      · rw [heq]
        exact ⟨hflag, hlt⟩
      · exact ⟨hflag', Nat.lt_trans hlt' hlt⟩

/-- **The sweeps settle**: they keep `I`, and no step changes the state they end in. -/
theorem sweeps_settled {l : List β} (hl : ∀ b ∈ l, Lowers g I μ b) :
    ∀ (n : ℕ) (s : σ), μ s < n → I s →
      I (sweeps g l n s) ∧ ∀ b ∈ l, g (sweeps g l n s, false) b = (sweeps g l n s, false)
  | 0, _, hn, _ => absurd hn (Nat.not_lt_zero _)
  | n + 1, s, hn, hs => by
    obtain ⟨hI, h⟩ := foldl_lowers l hl s false hs
    rw [sweeps]
    obtain ⟨heq, hfix⟩ | ⟨hflag, hlt⟩ := h
    · simpa [heq] using ⟨hs, hfix⟩
    · simp only [hflag, if_true]
      exact sweeps_settled hl n _ (Nat.lt_of_lt_of_le hlt (Nat.lt_succ_iff.mp hn)) hI

end MLton.Sweep
