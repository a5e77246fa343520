import Mathlib

/-!
# Basic/DisjointSet — disjoint sets

A forest of nodes that point at their parents, joined by rank and with paths shortened on the way: Batteries'
`UnionFind`, whose `union` and `link` compare the ranks the way `union` here does.  What is added is how roots
move, and the number of sets, which a union of two sets lowers.
-/

namespace MLton.DisjointSet

open Batteries (UnionFind)
open Batteries.UnionFind

variable {s : UnionFind} {a b i j : ℕ}

/-- `singleton`. -/
def singleton (s : UnionFind) : ℕ × UnionFind := (s.size, s.push)

/-- `equals`. -/
def equals (s : UnionFind) (a b : ℕ) : Bool := s.rootD a == s.rootD b

/-- `union`: where the ranks are equal the root of the first argument stays one. -/
def union (s : UnionFind) (a b : ℕ) : UnionFind :=
  if h : a < s.size ∧ b < s.size then s.union ⟨b, h.2⟩ ⟨a, h.1⟩ else s

@[simp] theorem equals_iff : equals s a b = true ↔ s.rootD a = s.rootD b := by
  simp [equals]

@[simp] theorem size_push : s.push.size = s.size + 1 := by
  simp [UnionFind.size]

theorem rootD_of_le (h : s.size ≤ a) : s.rootD a = a :=
  rootD_eq_self.mpr (parentD_of_not_lt (Nat.not_lt.mpr h))

/-! ## Unions -/

@[simp] theorem size_link {x y : Fin s.size} {hy : s.parent y = y} : (s.link x y hy).size = s.size := by
  simp [UnionFind.size]

/-- The two walks to the roots move no root, and what they end at is linked. -/
theorem exists_link (x y : Fin s.size) : ∃ (t : UnionFind) (rx ry : Fin t.size) (hy : t.parent ry = ry),
    s.union x y = t.link rx ry hy ∧ t.size = s.size ∧ (∀ i, t.rootD i = s.rootD i) ∧ rx.1 = s.rootD x ∧
      ry.1 = s.rootD y := by
  have hsize : (s.find x).1.size = s.size := (s.find x).2.2
  have hy : y.1 < (s.find x).1.size := y.2.trans_eq hsize.symm
  refine ⟨((s.find x).1.find ⟨y, hy⟩).1, ⟨(s.find x).2.1, ?_⟩, ((s.find x).1.find ⟨y, hy⟩).2.1, ?_, rfl, ?_⟩
  · rw [((s.find x).1.find ⟨y, hy⟩).2.2]
    exact (s.find x).2.1.2
  · rw [← rootD_eq_self]
    simp [rootD_rootD]
  · simp

/-- **A union takes the two roots to one of them, and leaves every other root as it is.** -/
theorem rootD_union (ha : a < s.size) (hb : b < s.size) : ∃ r, (r = s.rootD a ∨ r = s.rootD b) ∧
    ∀ i, (union s a b).rootD i =
      if s.rootD i = s.rootD a ∨ s.rootD i = s.rootD b then r else s.rootD i := by
  obtain ⟨t, rx, ry, hry, heq, -, hroot, hrx, hry'⟩ := exists_link (s := s) ⟨b, hb⟩ ⟨a, ha⟩
  have hrx0 : t.parent rx = rx := by
    rw [← rootD_eq_self, hroot, hrx, rootD_rootD]
  obtain ⟨r, hr, h⟩ := root_link hrx0 hry
  refine ⟨r, ?_, fun i => ?_⟩
  · rcases hr with rfl | rfl
    · exact .inr hrx
    · exact .inl hry'
  · rw [union, dif_pos ⟨ha, hb⟩, heq, h, hroot, hrx, hry']
    simp only [or_comm]

@[simp] theorem size_union : (union s a b).size = s.size := by
  unfold union
  split
  · rename_i h
    obtain ⟨t, rx, ry, hry, heq, hsize, -⟩ := exists_link (s := s) ⟨b, h.2⟩ ⟨a, h.1⟩
    rw [heq, size_link, hsize]
  · rfl

/-- Nodes with one root keep one. -/
theorem rootD_union_congr (h : s.rootD i = s.rootD j) : (union s a b).rootD i = (union s a b).rootD j := by
  by_cases hab : a < s.size ∧ b < s.size
  · obtain ⟨r, -, hr⟩ := rootD_union hab.1 hab.2
    rw [hr, hr, h]
  · rwa [union, dif_neg hab]

/-- The nodes united have one root. -/
theorem rootD_union_self (ha : a < s.size) (hb : b < s.size) :
    (union s a b).rootD a = (union s a b).rootD b := by
  obtain ⟨r, -, hr⟩ := rootD_union ha hb
  rw [hr, hr, if_pos (.inl rfl), if_pos (.inr rfl)]

/-- **What an equivalence says of the nodes with one root, and of the two united, it says of the nodes with one
root after the union.** -/
theorem union_sound {R : ℕ → ℕ → Prop} (hR : Equivalence R) (hs : ∀ i j, s.rootD i = s.rootD j → R i j)
    (hab : R a b) (h : (union s a b).rootD i = (union s a b).rootD j) : R i j := by
  by_cases hlt : a < s.size ∧ b < s.size
  · obtain ⟨r, hr, hroot⟩ := rootD_union hlt.1 hlt.2
    have hside : ∀ k, s.rootD k = s.rootD a ∨ s.rootD k = s.rootD b → R k a := fun k hk =>
      hk.elim (hs k a) fun hk => hR.trans (hs k b hk) (hR.symm hab)
    have hout : ∀ k, r = s.rootD k → s.rootD k = s.rootD a ∨ s.rootD k = s.rootD b := fun k hk =>
      hr.imp hk.symm.trans hk.symm.trans
    rw [hroot, hroot] at h
    split at h <;> split at h <;> rename_i hi hj
    · exact hR.trans (hside i hi) (hR.symm (hside j hj))
    · exact absurd (hout j h) hj
    · exact absurd (hout i h.symm) hi
    · exact hs i j h
  · rw [union, dif_neg hlt] at h
    exact hs i j h

/-! ## The number of sets -/

/-- The number of sets. -/
def count (s : UnionFind) : ℕ := ((Finset.range s.size).image s.rootD).card

theorem count_le : count s ≤ s.size :=
  Finset.card_image_le.trans_eq (Finset.card_range _)

theorem image_union : (Finset.range (union s a b).size).image (union s a b).rootD =
    ((Finset.range s.size).image s.rootD).image (union s a b).rootD := by
  rw [Finset.image_image, size_union]
  exact Finset.image_congr fun i _ => rootD_union_congr rootD_rootD.symm

/-- A union makes no set. -/
theorem count_union_le : count (union s a b) ≤ count s := by
  rw [count, image_union]
  exact Finset.card_image_le

/-- **A union of two sets leaves one set less.** -/
theorem count_union_lt (ha : a < s.size) (hb : b < s.size) (h : s.rootD a ≠ s.rootD b) :
    count (union s a b) < count s := by
  refine lt_of_le_of_ne count_union_le fun heq => h ?_
  rw [count, image_union] at heq
  have hinj := Finset.card_image_iff.mp heq
  have hmem : ∀ {c}, c < s.size → s.rootD c ∈ (Finset.range s.size).image s.rootD := fun hc =>
    Finset.mem_image_of_mem _ (Finset.mem_range.mpr hc)
  refine hinj (hmem ha) (hmem hb) ?_
  rw [rootD_union_congr (rootD_rootD : _ = s.rootD a), rootD_union_congr (rootD_rootD : _ = s.rootD b)]
  exact rootD_union_self ha hb

end MLton.DisjointSet
