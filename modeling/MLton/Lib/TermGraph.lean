import Mathlib.Algebra.Order.Group.Nat
import Mathlib.Algebra.Order.BigOperators.Group.List

/-!
# Lib/TermGraph — terms that share their parts and are merged

Nodes with one root are one term, and the term has parts.  A graph is ranked when every part of a term
ranks below it, which rules out a term inside itself.  Two terms can be merged if neither is inside the other
(`Ranked.merge`), and a term can be given new parts if it is inside none of them (`Ranked.set`).
-/

namespace MLton

/-- The terms of the nodes: their roots, and the parts of a root. -/
structure TermGraph (ν : Type*) where
  root : ν → ν
  parts : ν → List ν

namespace TermGraph

variable {ν : Type*} {g g' g'' : TermGraph ν} {n m c s s' : ν}

/-- The parts of the term of a node. -/
def components (g : TermGraph ν) (n : ν) : List ν := g.parts (g.root n)

theorem components_congr (h : g.root n = g.root m) : g.components n = g.components m :=
  congrArg g.parts h

/-! ## What is inside a term -/

/-- A term is reached from itself and from what it is a part of. -/
inductive Reach (g : TermGraph ν) : ν → ν → Prop
  | here {n m : ν} : g.root n = g.root m → Reach g n m
  | inside {n m c : ν} : c ∈ g.components n → Reach g c m → Reach g n m

theorem Reach.congr_left (h : g.Reach n m) (heq : g.root n = g.root c) : g.Reach c m := by
  cases h with
  | here hnm => exact .here (heq.symm.trans hnm)
  | inside hd hr => exact .inside (components_congr heq ▸ hd) hr

theorem Reach.trans (h : g.Reach n m) (h' : g.Reach m c) : g.Reach n c := by
  induction h with
  | here heq => exact h'.congr_left heq.symm
  | inside hd _ ih => exact .inside hd (ih h')

/-- Nothing else is reached from a term without parts. -/
theorem Reach.root_eq (h : g.Reach n m) (hn : g.components n = []) : g.root n = g.root m := by
  cases h with
  | here hnm => exact hnm
  | inside hd _ => exact absurd (hn ▸ hd) List.not_mem_nil

/-- **What holds of a term and of all that is inside it.** -/
def Holds (g : TermGraph ν) (ok : ν → Prop) (n : ν) : Prop := ∀ m, g.Reach n m → ok m

variable {ok ok' : ν → Prop}

theorem Holds.root (h : g.Holds ok n) : ok n := h n (.here rfl)

theorem Holds.component (h : g.Holds ok n) (hc : c ∈ g.components n) : g.Holds ok c :=
  fun m hm => h m (.inside hc hm)

theorem Holds.congr (h : g.Holds ok n) (heq : g.root n = g.root m) : g.Holds ok m :=
  fun _ hk => h _ (hk.congr_left heq.symm)

theorem Holds.mono (h : g.Holds ok n) (hok : ∀ m, ok m → ok' m) : g.Holds ok' n :=
  fun m hm => hok m (h m hm)

theorem Holds.intro (hroot : ∀ m, g.root n = g.root m → ok m) (hc : ∀ c ∈ g.components n, g.Holds ok c) :
    g.Holds ok n := by
  intro m hm
  cases hm with
  | here heq => exact hroot m heq
  | inside hd hr => exact hc _ hd m hr

/-- **Coinduction**: what is kept by the step to the parts holds throughout. -/
theorem holds_of {S : ν → Prop} (hroot : ∀ n m, g.root n = g.root m → ok n → ok m)
    (hS : ∀ n, S n → ok n ∧ ∀ c ∈ g.components n, S c) (hn : S n) : g.Holds ok n := by
  intro m hm
  induction hm with
  | here h => exact hroot _ _ h (hS _ hn).1
  | inside hc _ ih => exact ih ((hS _ hn).2 _ hc)

/-! ## Growing -/

/-- **Nothing is taken apart**: merged terms stay merged, and parts stay parts. -/
structure Grows (g g' : TermGraph ν) : Prop where
  root {n m : ν} : g.root n = g.root m → g'.root n = g'.root m
  component {n c : ν} : c ∈ g.components n → ∃ c' ∈ g'.components n, g'.root c' = g'.root c

theorem Grows.refl (g : TermGraph ν) : g.Grows g := ⟨id, fun h => ⟨_, h, rfl⟩⟩

theorem Grows.trans (h : g.Grows g') (h' : g'.Grows g'') : g.Grows g'' where
  root heq := h'.root (h.root heq)
  component hc := by
    obtain ⟨c', hc', heq⟩ := h.component hc
    obtain ⟨c'', hc'', heq'⟩ := h'.component hc'
    exact ⟨c'', hc'', heq'.trans (h'.root heq)⟩

theorem Reach.grows (h : g.Reach n m) (hg : g.Grows g') : g'.Reach n m := by
  induction h with
  | here heq => exact .here (hg.root heq)
  | inside hc _ ih =>
    obtain ⟨c', hc', heq⟩ := hg.component hc
    exact .inside hc' (ih.congr_left heq.symm)

/-- Where parts have been added, what is reached is reached as before or from an added part. -/
theorem Reach.of_added {T : ν → Prop} (hroot : ∀ n m, g'.root n = g'.root m → g.root n = g.root m)
    (hc : ∀ n, ∀ c ∈ g'.components n, c ∈ g.components n ∨ T c) (h : g'.Reach n m) :
    g.Reach n m ∨ ∃ c, T c ∧ g.Reach c m := by
  induction h with
  | here heq => exact .inl (.here (hroot _ _ heq))
  | @inside n m c hmem _ ih =>
    rcases ih with hr | hr
    · exact (hc n c hmem).imp (fun hmem => .inside hmem hr) fun ht => ⟨c, ht, hr⟩
    · exact .inr hr

/-! ## Ranks -/

/-- Every part of a term ranks below it. -/
def Ranked (g : TermGraph ν) : Prop :=
  ∃ rank : ν → ℕ, (∀ n m, g.root n = g.root m → rank n = rank m) ∧
    ∀ n, ∀ c ∈ g.components n, rank c < rank n

theorem Reach.rank_le {rank : ν → ℕ} (h : g.Reach n m) (hroot : ∀ n m, g.root n = g.root m → rank n = rank m)
    (hrank : ∀ n, ∀ c ∈ g.components n, rank c < rank n) : rank m ≤ rank n := by
  induction h with
  | here heq => exact (hroot _ _ heq).ge
  | inside hc _ ih => exact ih.trans (hrank _ _ hc).le

/-- A term is not inside a part of it. -/
theorem Ranked.not_reach (h : g.Ranked) (hc : c ∈ g.components n) : ¬ g.Reach c n := by
  obtain ⟨rank, hroot, hrank⟩ := h
  intro hcn
  exact absurd (hcn.rank_le hroot hrank) (not_le.mpr (hrank _ _ hc))

/-- **New parts**, none of which the term is inside of. -/
theorem Ranked.set (h : g.Ranked) (hroot : ∀ n, g'.root n = g.root n)
    (hother : ∀ n, g.root n ≠ g.root s → g'.components n = g.components n)
    (hnew : ∀ c ∈ g'.components s, ¬ g.Reach c s) : g'.Ranked := by
  classical
  obtain ⟨rank, hcongr, hrank⟩ := h
  let top := ((g'.components s).map rank).sum + 1
  have htop : ∀ c ∈ g'.components s, rank c < top := fun c hc =>
    Nat.lt_succ_of_le (List.single_le_sum (fun _ _ => Nat.zero_le _) _ (List.mem_map_of_mem hc))
  refine ⟨fun n => rank n + if g.Reach n s then top else 0, fun n m heq => ?_, fun n c hc => ?_⟩
  · rw [hroot, hroot] at heq
    have hreach : g.Reach n s ↔ g.Reach m s := ⟨(·.congr_left heq), (·.congr_left heq.symm)⟩
    simp only [hcongr n m heq, hreach]
  · by_cases hn : g.root n = g.root s
    · have hc' : c ∈ g'.components s := by
        rwa [components_congr (show g'.root s = g'.root n by rw [hroot, hroot, hn])]
      have := htop c hc'
      simp only [if_neg (hnew c hc'), if_pos (Reach.here hn)]
      omega
    · rw [hother n hn] at hc
      have hlt := hrank n c hc
      by_cases hr : g.Reach c s
      · simp only [if_pos hr, if_pos (Reach.inside hc hr)]
        omega
      · simp only [if_neg hr]
        omega

/-- **Two terms merged**, neither of which is inside the other. -/
theorem Ranked.merge (h : g.Ranked) (hs : ¬ g.Reach s s') (hs' : ¬ g.Reach s' s)
    (hroot : ∀ n m, g'.root n = g'.root m → g.root n = g.root m ∨
      (g.root n = g.root s ∨ g.root n = g.root s') ∧ (g.root m = g.root s ∨ g.root m = g.root s'))
    (hparts : ∀ n, ∀ c ∈ g'.components n, ∃ c', g.root c' = g.root c ∧ (c' ∈ g.components n ∨
      (g.root n = g.root s ∨ g.root n = g.root s') ∧ (c' ∈ g.components s ∨ c' ∈ g.components s'))) :
    g'.Ranked := by
  classical
  obtain ⟨rank, hcongr, hrank⟩ := h
  -- what one of them is inside of is raised by what that one lacks
  let lift : ν → ℕ := fun n =>
    rank n + (if g.Reach n s then rank s' - rank s else 0) + if g.Reach n s' then rank s - rank s' else 0
  have hlift : ∀ n m, g.root n = g.root m → lift n = lift m := by
    intro n m heq
    have hr : ∀ k, g.Reach n k ↔ g.Reach m k := fun k => ⟨(·.congr_left heq), (·.congr_left heq.symm)⟩
    simp only [lift, hcongr n m heq, hr]
  have hmerged : lift s = lift s' := by
    simp only [lift, if_pos (Reach.here (g := g) (rfl : g.root s = g.root s)),
      if_pos (Reach.here (g := g) (rfl : g.root s' = g.root s')), if_neg hs, if_neg hs']
    omega
  have heither : ∀ n, g.root n = g.root s ∨ g.root n = g.root s' → lift n = lift s
    | n, .inl heq => hlift n s heq
    | n, .inr heq => (hlift n s' heq).trans hmerged.symm
  have hlt : ∀ n, ∀ c ∈ g.components n, lift c < lift n := by
    intro n c hc
    have hlt := hrank n c hc
    have hle : ∀ k d, (if g.Reach c k then d else 0) ≤ if g.Reach n k then d else 0 := by
      intro k d
      by_cases hr : g.Reach c k
      · rw [if_pos hr, if_pos (Reach.inside hc hr)]
      · rw [if_neg hr]
        exact Nat.zero_le _
    exact add_lt_add_of_lt_of_le (add_lt_add_of_lt_of_le hlt (hle _ _)) (hle _ _)
  refine ⟨lift, fun n m heq => ?_, fun n c hc => ?_⟩
  · rcases hroot n m heq with heq | ⟨hn, hm⟩
    · exact hlift n m heq
    · exact (heither n hn).trans (heither m hm).symm
  · obtain ⟨c', heq, hc' | ⟨hn, hc' | hc'⟩⟩ := hparts n c hc
    · exact hlift c' c heq ▸ hlt n c' hc'
    · exact heither n hn ▸ hlift c' c heq ▸ hlt s c' hc'
    · exact heither n hn ▸ hmerged ▸ hlift c' c heq ▸ hlt s' c' hc'

/-- Where two terms have been merged, what is reached is reached as before or from one of them. -/
theorem Reach.of_merged (hroot : ∀ n m, g'.root n = g'.root m → g.root n = g.root m ∨
      (g.root n = g.root s ∨ g.root n = g.root s') ∧ (g.root m = g.root s ∨ g.root m = g.root s'))
    (hparts : ∀ n, ∀ c ∈ g'.components n, ∃ c', g.root c' = g.root c ∧ (c' ∈ g.components n ∨
      (g.root n = g.root s ∨ g.root n = g.root s') ∧ (c' ∈ g.components s ∨ c' ∈ g.components s')))
    (h : g'.Reach n m) : g.Reach n m ∨ g.Reach s m ∨ g.Reach s' m := by
  induction h with
  | here heq =>
    rcases hroot _ _ heq with heq | ⟨-, heq | heq⟩
    · exact .inl (.here heq)
    · exact .inr (.inl (.here heq.symm))
    · exact .inr (.inr (.here heq.symm))
  | inside hmem _ ih =>
    rcases ih with hr | hr
    · obtain ⟨c', heq, hc' | ⟨-, hc' | hc'⟩⟩ := hparts _ _ hmem
      · exact .inl (.inside hc' (hr.congr_left heq.symm))
      · exact .inr (.inl (.inside hc' (hr.congr_left heq.symm)))
      · exact .inr (.inr (.inside hc' (hr.congr_left heq.symm)))
    · exact .inr hr

end TermGraph

end MLton
