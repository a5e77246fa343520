import MLton.Machinery.Dfs

/-!
# Lib/TwoPointLattice — mutable elements of the lattice `⊥ < ⊤`

An element at the bottom keeps handlers to run when it becomes top.  Every handler here makes another
element top, so raising an element is a depth-first search along the handlers.
-/

namespace MLton.TwoPointLattice

/-- The heap of lattice elements: the ones at the top, and the handlers of the others. -/
structure Store (κ : Type*) where
  tops : List κ
  handlers : κ → List κ

variable {κ : Type*} [DecidableEq κ]

/-- `isTop`. -/
def isTop (s : Store κ) (e : κ) : Bool := e ∈ s.tops

/-- `makeTop`: the element becomes top, then its handlers run.  The number bounds the recursion. -/
def makeTop (n : ℕ) (s : Store κ) (e : κ) : Store κ :=
  { s with tops := (Dfs.visit s.handlers (fun _ _ => ()) (fun _ _ => ()) n (s.tops, ()) e).1 }

/-- `addHandler (e, fn () => makeTop e')`. -/
def addHandler (n : ℕ) (s : Store κ) (e e' : κ) : Store κ :=
  if isTop s e then makeTop n s e'
  else { s with handlers := Function.update s.handlers e (e' :: s.handlers e) }

/-- **The store is settled**: the handlers of a top element have run, and everything a handler raises
is listed in `U`. -/
structure Good (U : List κ) (s : Store κ) : Prop where
  listed : ∀ a, s.handlers a ⊆ U
  run : ∀ a ∈ s.tops, s.handlers a ⊆ s.tops

/-- Once `a` is top, `b` will be. -/
def Tracked (s : Store κ) (a b : κ) : Prop := b ∈ s.handlers a ∨ b ∈ s.tops

/-- Nothing is forgotten: tops stay, and implications stay tracked. -/
structure Extends (s t : Store κ) : Prop where
  tops : s.tops ⊆ t.tops
  tracked : ∀ a b, Tracked s a b → Tracked t a b

variable {U : List κ} {s t : Store κ}

omit [DecidableEq κ] in
theorem Extends.refl (s : Store κ) : Extends s s := ⟨List.Subset.refl _, fun _ _ h => h⟩

omit [DecidableEq κ] in
theorem Extends.trans {u : Store κ} (h : Extends s t) (h' : Extends t u) : Extends s u :=
  ⟨List.Subset.trans h.tops h'.tops, fun a b hab => h'.tracked a b (h.tracked a b hab)⟩

omit [DecidableEq κ] in
theorem Good.mem_tops (h : Good U s) {a b : κ} (hab : Tracked s a b) (ha : a ∈ s.tops) :
    b ∈ s.tops :=
  hab.elim (fun hb => h.run a ha hb) id

theorem extends_makeTop (n : ℕ) (s : Store κ) (e : κ) : Extends s (makeTop n s e) where
  tops := Dfs.subset_visit n (s.tops, ()) e
  tracked _ _ h := h.imp id fun hb => Dfs.subset_visit n (s.tops, ()) e hb

/-- **`makeTop` raises its element and settles the store again.** -/
theorem Good.makeTop (h : Good U s) {n : ℕ} (hn : U.length < n) {e : κ} (he : e ∈ U) :
    Good U (makeTop n s e) ∧ Extends s (makeTop n s e) ∧ e ∈ (makeTop n s e).tops := by
  obtain ⟨hmem, hcl⟩ : e ∈ (TwoPointLattice.makeTop n s e).tops ∧
      ∀ a ∈ (TwoPointLattice.makeTop n s e).tops, a ∉ s.tops →
        s.handlers a ⊆ (TwoPointLattice.makeTop n s e).tops :=
    Dfs.visit_closed (fun u _ => h.listed u) n (s.tops, ()) e
      (Nat.lt_of_le_of_lt (List.length_filter_le _ _) hn) he
  have hext := extends_makeTop n s e
  refine ⟨⟨h.listed, fun a ha => ?_⟩, hext, hmem⟩
  by_cases hold : a ∈ s.tops
  · exact List.Subset.trans (h.run a hold) hext.tops
  · exact hcl a ha hold

/-- **`addHandler` tracks its implication.** -/
theorem Good.addHandler (h : Good U s) {n : ℕ} (hn : U.length < n) {e e' : κ} (he' : e' ∈ U) :
    Good U (addHandler n s e e') ∧ Extends s (addHandler n s e e') ∧
      Tracked (addHandler n s e e') e e' := by
  by_cases htop : e ∈ s.tops
  · obtain ⟨hgood, hext, hmem⟩ := h.makeTop hn he'
    rw [TwoPointLattice.addHandler, if_pos (by simpa [isTop] using htop)]
    exact ⟨hgood, hext, Or.inr hmem⟩
  · rw [TwoPointLattice.addHandler, if_neg (by simpa [isTop] using htop)]
    have hself : ∀ a b, b ∈ Function.update s.handlers e (e' :: s.handlers e) a ↔
        b ∈ s.handlers a ∨ (a = e ∧ b = e') := by
      intro a b
      by_cases ha : a = e
      · subst ha
        simp [or_comm]
      · simp [ha]
    refine ⟨⟨fun a b hb => ?_, fun a ha b hb => ?_⟩,
      ⟨List.Subset.refl _, fun a b hab => ?_⟩, Or.inl ((hself e e').mpr (Or.inr ⟨rfl, rfl⟩))⟩
    · rcases (hself a b).mp hb with hb | ⟨-, rfl⟩
      · exact h.listed a hb
      · exact he'
    · rcases (hself a b).mp hb with hb | ⟨rfl, -⟩
      · exact h.run a ha hb
      · exact absurd ha htop
    · exact hab.imp (fun hb => (hself a b).mpr (Or.inl hb)) id

end MLton.TwoPointLattice
