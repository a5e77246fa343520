import Mathlib.Logic.Relation
import Mathlib.Tactic.ByContra

/-!
# Machinery/Dominance — dominance in a rooted graph

`d` dominates `v` when no path from the root to `v` avoids it, and the immediate dominator is the
nearest one of the others (`Immediate`).  Paths may have more than one node to avoid, as when a set of
nodes is to be met by every path.
-/

namespace MLton.Dominance

variable {ν : Type*} {E : ν → ν → Prop} {D : ν → Prop} {root a b d u v : ν}

/-- A path from the root to a node that goes through no node of `D`. -/
inductive Avoids (E : ν → ν → Prop) (root : ν) (D : ν → Prop) : ν → Prop
  | root (hne : ¬ D root) : Avoids E root D root
  | step {u v : ν} (hu : Avoids E root D u) (huv : E u v) (hne : ¬ D v) : Avoids E root D v

/-- Every path from the root goes through `d`. -/
def Dominates (E : ν → ν → Prop) (root d v : ν) : Prop := ¬ Avoids E root (· = d) v

theorem Avoids.reaches (h : Avoids E root D v) : Relation.ReflTransGen E root v := by
  induction h with
  | root => exact .refl
  | step _ huv _ ih => exact ih.tail huv

/-- Nodes out of reach are on no path. -/
theorem avoids_of_not_reaches (hD : ∀ d, D d → ¬ Relation.ReflTransGen E root d)
    (hv : Relation.ReflTransGen E root v) : Avoids E root D v := by
  induction hv with
  | refl => exact .root fun h => hD _ h .refl
  | tail hu huv ih => exact ih.step huv fun h => hD _ h (hu.tail huv)

theorem Avoids.notMem (h : Avoids E root D v) : ¬ D v := by
  cases h with
  | root hne => exact hne
  | step _ _ hne => exact hne

theorem dominates_refl : Dominates E root v v := fun h => h.notMem rfl

/-- A path that avoids some nodes goes through no set all whose paths go through them. -/
theorem Avoids.of_forall {D' : ν → Prop} (h : Avoids E root D v)
    (hD : ∀ d, D' d → ¬ Avoids E root D d) : Avoids E root D' v := by
  induction h with
  | root hne => exact .root fun h => hD _ h (.root hne)
  | step hu huv hne ih => exact ih.step huv fun h => hD _ h (hu.step huv hne)

theorem Dominates.trans (hab : Dominates E root a b) (hbv : Dominates E root b v) :
    Dominates E root a v :=
  fun h => hbv (h.of_forall fun d hd => by rwa [hd])

/-- What dominates a node dominates its predecessors, unless it is the node itself. -/
theorem Dominates.pred (h : Dominates E root d v) (huv : E u v) (hne : v ≠ d) : Dominates E root d u :=
  fun hu => h (hu.step huv hne)

/-- A path avoids `D`, or it has a first node in `D`. -/
theorem avoids_or_exists_first (D : ν → Prop) (h : Relation.ReflTransGen E root v) :
    Avoids E root D v ∨ ∃ w, D w ∧ (w = root ∨ ∃ u, Avoids E root D u ∧ E u w) := by
  induction h with
  | refl =>
    by_cases hr : D root
    · exact .inr ⟨root, hr, .inl rfl⟩
    · exact .inl (.root hr)
  | @tail b c _ hbc ih =>
    refine ih.elim (fun hb => ?_) .inr
    by_cases hc : D c
    · exact .inr ⟨c, hc, .inr ⟨b, hb, hbc⟩⟩
    · exact .inl (hb.step hbc hc)

/-- Nodes that dominate each other are one node. -/
theorem Dominates.antisymm (hab : Dominates E root a b) (hba : Dominates E root b a)
    (hreach : Relation.ReflTransGen E root b) : a = b := by
  by_contra hne
  obtain hav | ⟨w, hw, hfirst⟩ := avoids_or_exists_first (fun v => v = a ∨ v = b) hreach
  · exact hav.notMem (.inr rfl)
  · have hav : ∀ d, d = a ∨ d = b → d ≠ w → Avoids E root (· = d) w := by
      intro d hd hdw
      obtain rfl | ⟨u, hu, huw⟩ := hfirst
      · exact .root (Ne.symm hdw)
      · exact .step (hu.of_forall fun d' hd' hd'av => hd'av.notMem (hd' ▸ hd)) huw (Ne.symm hdw)
    obtain rfl | rfl := hw
    · exact hba (hav b (.inr rfl) (Ne.symm hne))
    · exact hab (hav a (.inl rfl) hne)

/-- If neither of two nodes dominates the other, no node is dominated by both. -/
theorem Avoids.either (hab : Avoids E root (· = a) b) (hba : Avoids E root (· = b) a)
    (hreach : Relation.ReflTransGen E root v) :
    Avoids E root (· = a) v ∨ Avoids E root (· = b) v := by
  have hne : a ≠ b := fun h => hab.notMem h.symm
  induction hreach with
  | refl =>
    by_cases hra : root = a
    · exact .inr (.root fun h => hne (hra.symm.trans h))
    · exact .inl (.root hra)
  | @tail u w _ huw ih =>
    obtain hu | hu := ih
    · by_cases hw : w = a
      · exact .inr (hw ▸ hba)
      · exact .inl (hu.step huw hw)
    · by_cases hw : w = b
      · exact .inl (hw ▸ hab)
      · exact .inr (hu.step huw hw)

/-- Of two dominators of a node, one dominates the other. -/
theorem Dominates.total (hav : Dominates E root a v) (hbv : Dominates E root b v)
    (hreach : Relation.ReflTransGen E root v) : Dominates E root a b ∨ Dominates E root b a := by
  by_contra hno
  rw [not_or, Dominates, Dominates, not_not, not_not] at hno
  exact (hno.1.either hno.2 hreach).elim hav hbv

/-- The immediate dominator: a dominator other than the node, which the other ones dominate. -/
structure Immediate (E : ν → ν → Prop) (root d v : ν) : Prop where
  ne : d ≠ v
  dominates : Dominates E root d v
  nearest : ∀ {a}, a ≠ v → Dominates E root a v → Dominates E root a d

/-- What dominates a node in reach is in reach. -/
theorem Dominates.reaches (h : Dominates E root d v) (hv : Relation.ReflTransGen E root v) :
    Relation.ReflTransGen E root d := by
  by_contra hd
  exact h (avoids_of_not_reaches (fun _ heq => heq ▸ hd) hv)

/-- Only one node is the immediate dominator of another. -/
theorem Immediate.unique (ha : Immediate E root a v) (hb : Immediate E root b v)
    (hv : Relation.ReflTransGen E root v) : a = b :=
  (hb.nearest ha.ne ha.dominates).antisymm (ha.nearest hb.ne hb.dominates) (hb.dominates.reaches hv)

/-- Of the nodes with one immediate dominator, at most one dominates a node in reach. -/
theorem Immediate.eq_of_dominates (ha : Immediate E root d a) (hb : Immediate E root d b)
    (hav : Dominates E root a v) (hbv : Dominates E root b v) (hv : Relation.ReflTransGen E root v) :
    a = b := by
  have hone : ∀ {a b}, Immediate E root d a → Immediate E root d b → Dominates E root a v →
      Dominates E root a b → a = b := by
    intro a b ha hb hav hab
    by_contra hne
    exact ha.ne (ha.dominates.antisymm (hb.nearest hne hab) (hav.reaches hv))
  obtain hab | hba := hav.total hbv hv
  · exact hone ha hb hav hab
  · exact (hone hb ha hbv hba).symm

end MLton.Dominance
