import MLton.Basic.DisjointSet

/-!
# Basic/EquivalenceGraph — classes with sizes, and coarsening

An equivalence graph is an equivalence relation on classes, a size for each set of classes joined so far, and
edges.  The size stands in the record of a set's root: `union` leaves one of the two records behind, and writes
the sum of both sizes to the other.

* `Sized` — the size at every root is the sum of the sizes its classes were made with;
* `coarsen_bounded` — a set that `coarsen` leaves is one that it found, or has a size within the limit.
-/

namespace MLton

open Batteries (UnionFind)
open Batteries.UnionFind

/-- `EquivalenceGraph.t`: the sets, the sizes in the records of their nodes, and the edges, latest first. -/
structure EquivalenceGraph where
  sets : UnionFind
  sizes : ℕ → ℕ
  edges : List (ℕ × ℕ)

namespace EquivalenceGraph

variable {g : EquivalenceGraph} {ws : List ℕ} {c c' n r i j : ℕ}

/-- `new`. -/
def new : EquivalenceGraph where
  sets := UnionFind.empty
  sizes := fun _ => 0
  edges := []

/-- `newClass`. -/
def newClass (g : EquivalenceGraph) (size : ℕ) : ℕ × EquivalenceGraph :=
  (g.sets.size, { g with sets := g.sets.push, sizes := Function.update g.sizes g.sets.size size })

/-- `addEdge`. -/
def addEdge (g : EquivalenceGraph) (c c' : ℕ) : EquivalenceGraph := { g with edges := (c, c') :: g.edges }

/-- `Class.size`. -/
def size (g : EquivalenceGraph) (c : ℕ) : ℕ := g.sizes (g.sets.rootD c)

/-- `Class.setSize`. -/
def setSize (g : EquivalenceGraph) (c n : ℕ) : EquivalenceGraph :=
  { g with sizes := Function.update g.sizes (g.sets.rootD c) n }

/-- `==`. -/
def union (g : EquivalenceGraph) (c c' : ℕ) : EquivalenceGraph :=
  if DisjointSet.equals g.sets c c' then g
  else setSize { g with sets := DisjointSet.union g.sets c c' } c (g.size c + g.size c')

/-- The body of `coarsen` at one edge. -/
def coarsenEdge (maxClassSize : ℤ) (g : EquivalenceGraph) (e : ℕ × ℕ) : EquivalenceGraph :=
  if (g.size e.1 + g.size e.2 : ℤ) ≤ maxClassSize then g.union e.1 e.2 else g

/-- `coarsen`. -/
def coarsen (g : EquivalenceGraph) (maxClassSize : ℤ) : EquivalenceGraph :=
  g.edges.foldl (coarsenEdge maxClassSize) g

theorem sets_union (h : g.sets.rootD c ≠ g.sets.rootD c') :
    (g.union c c').sets = DisjointSet.union g.sets c c' := by
  rw [union, if_neg (by simpa using h)]
  rfl

theorem union_eq_self (h : g.sets.rootD c = g.sets.rootD c') : g.union c c' = g := by
  rw [union, if_pos (by simpa using h)]

@[simp] theorem size_sets_union : (g.union c c').sets.size = g.sets.size := by
  by_cases h : g.sets.rootD c = g.sets.rootD c'
  · rw [union_eq_self h]
  · rw [sets_union h, DisjointSet.size_union]

/-- Classes in one set stay in one. -/
theorem rootD_union_congr (h : g.sets.rootD i = g.sets.rootD j) :
    (g.union c c').sets.rootD i = (g.union c c').sets.rootD j := by
  by_cases heq : g.sets.rootD c = g.sets.rootD c'
  · rwa [union_eq_self heq]
  · rw [sets_union heq]
    exact DisjointSet.rootD_union_congr h

theorem rootD_union_self (hc : c < g.sets.size) (hc' : c' < g.sets.size) :
    (g.union c c').sets.rootD c = (g.union c c').sets.rootD c' := by
  by_cases heq : g.sets.rootD c = g.sets.rootD c'
  · rwa [union_eq_self heq]
  · rw [sets_union heq]
    exact DisjointSet.rootD_union_self hc hc'

theorem union_sound {R : ℕ → ℕ → Prop} (hR : Equivalence R)
    (hs : ∀ i j, g.sets.rootD i = g.sets.rootD j → R i j) (hcc : R c c')
    (h : (g.union c c').sets.rootD i = (g.union c c').sets.rootD j) : R i j := by
  by_cases heq : g.sets.rootD c = g.sets.rootD c'
  · rw [union_eq_self heq] at h
    exact hs i j h
  · rw [sets_union heq] at h
    exact DisjointSet.union_sound hR hs hcc h

/-! ## Sizes -/

/-- The classes below `n` with root `r`, as a sum of what `ws` gives for them. -/
def weight (s : UnionFind) (ws : List ℕ) (r : ℕ) : ℕ :=
  (((List.range s.size).filter fun i => s.rootD i = r).map fun i => ws.getD i 0).sum

/-- **The size at every root is the sum of the sizes its classes were made with.** -/
structure Sized (g : EquivalenceGraph) (ws : List ℕ) : Prop where
  length : g.sets.size = ws.length
  sizes : ∀ r < g.sets.size, g.sets.rootD r = r → g.sizes r = weight g.sets ws r

theorem Sized.new : Sized new [] := ⟨rfl, fun r hr => absurd hr (Nat.not_lt_zero r)⟩

theorem Sized.size (h : Sized g ws) (hc : c < g.sets.size) : g.size c = weight g.sets ws (g.sets.rootD c) :=
  h.sizes _ (rootD_lt.mpr hc) rootD_rootD

/-- The sums over two parts of a list. -/
theorem sum_filter_or {α : Type*} {p q : α → Bool} (f : α → ℕ) (hpq : ∀ x, p x = true → q x = false) :
    ∀ l : List α, ((l.filter fun x => p x || q x).map f).sum =
      ((l.filter p).map f).sum + ((l.filter q).map f).sum
  | [] => rfl
  | x :: l => by
    have ih := sum_filter_or f hpq l
    cases hp : p x with
    | true => simp [hp, hpq x hp, ih]; omega
    | false => cases hq : q x <;> simp [hp, hq, ih]; omega

theorem Sized.newClass (h : Sized g ws) (size : ℕ) : Sized (g.newClass size).2 (ws ++ [size]) := by
  have hnew : g.sets.rootD g.sets.size = g.sets.size := DisjointSet.rootD_of_le le_rfl
  have hlast : (ws ++ [size]).getD g.sets.size 0 = size := by simp [h.length]
  have hsum : ∀ r, ((List.range g.sets.size).filter fun i => g.sets.rootD i = r).map
      (fun i => (ws ++ [size]).getD i 0) =
        ((List.range g.sets.size).filter fun i => g.sets.rootD i = r).map fun i => ws.getD i 0 := fun r =>
    List.map_congr_left fun i hi => by
      have hi : i < ws.length := h.length ▸ List.mem_range.mp (List.mem_of_mem_filter hi)
      simp [List.getElem?_append_left hi]
  refine ⟨by simp [EquivalenceGraph.newClass, h.length], fun r hr hroot => ?_⟩
  simp only [EquivalenceGraph.newClass, DisjointSet.size_push, root_push] at hr hroot ⊢
  simp only [weight, DisjointSet.size_push, root_push, List.range_succ, List.filter_append, List.map_append,
    List.sum_append, hsum, List.filter_cons, List.filter_nil, hnew]
  obtain rfl | hne := eq_or_ne r g.sets.size
  · have hnone : (List.range g.sets.size).filter (fun i => g.sets.rootD i = g.sets.size) = [] :=
      List.filter_eq_nil_iff.mpr fun i hi => by
        have : g.sets.rootD i < g.sets.size := rootD_lt.mpr (List.mem_range.mp hi)
        simp only [decide_eq_true_eq]
        omega
    rw [hnone]
    simpa using hlast.symm
  · have hlt : r < g.sets.size := by omega
    rw [Function.update_of_ne hne, h.sizes r hlt hroot, weight]
    simp [hne.symm]

/-- What a union of two sets does to the roots and to the sizes. -/
theorem exists_union (hc : c < g.sets.size) (hc' : c' < g.sets.size) (hne : g.sets.rootD c ≠ g.sets.rootD c') :
    ∃ r, (r = g.sets.rootD c ∨ r = g.sets.rootD c') ∧
      (∀ i, (g.union c c').sets.rootD i =
        if g.sets.rootD i = g.sets.rootD c ∨ g.sets.rootD i = g.sets.rootD c' then r else g.sets.rootD i) ∧
      ∀ k, (g.union c c').sizes k = if k = r then g.size c + g.size c' else g.sizes k := by
  obtain ⟨r, hr, hroot⟩ := DisjointSet.rootD_union hc hc'
  have hc0 : (DisjointSet.union g.sets c c').rootD c = r := by rw [hroot, if_pos (.inl rfl)]
  refine ⟨r, hr, fun i => by rw [sets_union hne, hroot], fun k => ?_⟩
  rw [union, if_neg (by simpa using hne)]
  simp only [setSize, hc0, Function.update_apply]

/-- The sets of neither class are as before. -/
theorem rootD_union_iff (hc : c < g.sets.size) (hc' : c' < g.sets.size)
    (hn : g.sets.rootD n ≠ g.sets.rootD c) (hn' : g.sets.rootD n ≠ g.sets.rootD c') :
    (g.union c c').sets.rootD n = g.sets.rootD n ∧
      ∀ i, (g.union c c').sets.rootD i = g.sets.rootD n ↔ g.sets.rootD i = g.sets.rootD n := by
  obtain heq | hne := eq_or_ne (g.sets.rootD c) (g.sets.rootD c')
  · simp [union_eq_self heq]
  obtain ⟨r, hr, hroot, -⟩ := exists_union hc hc' hne
  refine ⟨by rw [hroot, if_neg (not_or.mpr ⟨hn, hn'⟩)], fun i => ?_⟩
  rw [hroot]
  split
  · rename_i hi
    refine ⟨fun h => ?_, fun h => ?_⟩
    · exact (hr.elim (fun hr => hn (h.symm.trans hr)) fun hr => hn' (h.symm.trans hr)).elim
    · exact (hi.elim (fun hi => hn (h.symm.trans hi)) fun hi => hn' (h.symm.trans hi)).elim
  · rfl

/-- **A union keeps the sizes.** -/
theorem Sized.union (h : Sized g ws) (hc : c < g.sets.size) (hc' : c' < g.sets.size) :
    Sized (g.union c c') ws := by
  obtain heq | hne := eq_or_ne (g.sets.rootD c) (g.sets.rootD c')
  · rwa [union_eq_self heq]
  obtain ⟨r, hr, hroot, hsizes⟩ := exists_union hc hc' hne
  refine ⟨by rw [size_sets_union, h.length], fun k hk hkroot => ?_⟩
  rw [size_sets_union] at hk
  rw [hsizes, weight, size_sets_union]
  split
  · subst k
    -- The classes of the joined set are those of either one, and of none other.
    have hmem : ∀ i, decide ((g.union c c').sets.rootD i = r) =
        (decide (g.sets.rootD i = g.sets.rootD c) || decide (g.sets.rootD i = g.sets.rootD c')) := fun i => by
      rw [hroot]
      split
      · rename_i hi
        simpa using hi
      · rename_i hi
        rw [not_or] at hi
        rcases hr with rfl | rfl <;> simp [hi.1, hi.2]
    simp only [hmem]
    rw [sum_filter_or _ fun i hi => by
      simp only [decide_eq_true_eq, decide_eq_false_iff_not] at hi ⊢
      exact hi ▸ hne]
    rw [h.size hc, h.size hc', weight, weight]
  · rename_i hkr
    have hk0 : g.sets.rootD k ≠ g.sets.rootD c ∧ g.sets.rootD k ≠ g.sets.rootD c' := by
      constructor <;> intro heq <;> rw [hroot, heq] at hkroot <;> simp at hkroot <;> exact hkr hkroot.symm
    obtain ⟨hsame, hiff⟩ := rootD_union_iff hc hc' hk0.1 hk0.2
    have hroot0 : g.sets.rootD k = k := hsame.symm.trans hkroot
    simp only [hroot0] at hiff
    simp only [hiff]
    exact h.sizes k hk hroot0

/-! ## Coarsening -/

/-- A set is one that `R` relates, or its size is within the limit. -/
def Bounded (R : ℕ → ℕ → Prop) (maxClassSize : ℤ) (g : EquivalenceGraph) (c : ℕ) : Prop :=
  (∀ i j, g.sets.rootD i = g.sets.rootD c → g.sets.rootD j = g.sets.rootD c → R i j) ∨
    (g.size c : ℤ) ≤ maxClassSize

/-- **A union within the limit leaves sets within the limit.** -/
theorem Bounded.union {R : ℕ → ℕ → Prop} {maxClassSize : ℤ} (hc : c < g.sets.size) (hc' : c' < g.sets.size)
    (hle : (g.size c + g.size c' : ℤ) ≤ maxClassSize) (h : Bounded R maxClassSize g n) :
    Bounded R maxClassSize (g.union c c') n := by
  obtain heq | hne := eq_or_ne (g.sets.rootD c) (g.sets.rootD c')
  · rwa [union_eq_self heq]
  obtain ⟨r, hr, hroot, hsizes⟩ := exists_union hc hc' hne
  by_cases hn : g.sets.rootD n = g.sets.rootD c ∨ g.sets.rootD n = g.sets.rootD c'
  · refine .inr ?_
    rw [size, hroot, if_pos hn, hsizes, if_pos rfl]
    exact_mod_cast hle
  · obtain ⟨hsame, hiff⟩ := rootD_union_iff hc hc' (not_or.mp hn).1 (not_or.mp hn).2
    have hnr : g.sets.rootD n ≠ r := fun hnr => hn (hr.imp hnr.trans hnr.trans)
    obtain h | h := h
    · exact .inl fun i j hi hj => h i j ((hiff i).mp (hi.trans hsame)) ((hiff j).mp (hj.trans hsame))
    · refine .inr ?_
      rwa [EquivalenceGraph.size, hsame, hsizes, if_neg hnr]

/-- What coarsening keeps: the sizes, classes that are in one set, and sets within the limit. -/
structure Coarsened (R : ℕ → ℕ → Prop) (maxClassSize : ℤ) (ws : List ℕ) (g g' : EquivalenceGraph) : Prop where
  size_eq : g'.sets.size = g.sets.size
  sized : Sized g' ws
  rootD : ∀ i j, g.sets.rootD i = g.sets.rootD j → g'.sets.rootD i = g'.sets.rootD j
  bounded : ∀ n < g.sets.size, Bounded R maxClassSize g' n

/-- **A set that `coarsen` leaves is one that it found, or has a size within the limit.** -/
theorem coarsen_bounded {R : ℕ → ℕ → Prop} {maxClassSize : ℤ} (h : Sized g ws)
    (hedges : ∀ e ∈ g.edges, e.1 < g.sets.size ∧ e.2 < g.sets.size)
    (hR : ∀ i j, g.sets.rootD i = g.sets.rootD j → R i j) :
    Coarsened R maxClassSize ws g (g.coarsen maxClassSize) := by
  have hstart : Coarsened R maxClassSize ws g g :=
    ⟨rfl, h, fun _ _ => id, fun n _ => .inl fun i j hi hj => hR i j (hi.trans hj.symm)⟩
  unfold coarsen
  generalize hes : g.edges = es at hedges
  suffices ∀ g', Coarsened R maxClassSize ws g g' →
      Coarsened R maxClassSize ws g (es.foldl (coarsenEdge maxClassSize) g') from this g hstart
  clear hes hstart
  induction es with
  | nil => exact fun _ => id
  | cons e es ih =>
    intro g' hg'
    refine ih (fun e he => hedges e (List.mem_cons_of_mem _ he)) _ ?_
    unfold coarsenEdge
    split
    · rename_i hle
      have he := hedges e (List.mem_cons_self ..)
      rw [← hg'.size_eq] at he
      exact ⟨by rw [size_sets_union, hg'.size_eq], hg'.sized.union he.1 he.2,
        fun i j hij => rootD_union_congr (hg'.rootD i j hij),
        fun n hn => (hg'.bounded n hn).union he.1 he.2 hle⟩
    · exact hg'

end EquivalenceGraph

end MLton
