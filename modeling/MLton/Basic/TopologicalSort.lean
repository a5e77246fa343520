import MLton.Basic.StrongComponents

/-!
# Basic/TopologicalSort — `topologicalSort`, and the cycles it does not see

`topologicalSort` puts each node in front of the list when the depth-first search leaves it, and gives up at an edge
to a node with `amVisiting`.  No node ever gets `amVisiting`: what the search reaches again is not told apart from
what it has left, and no cycle is seen.

* `topologicalSort_isSome` — there is always a result;
* `topologicalSort_correct_iff` — the result is right if and only if the graph has no cycle.
-/

namespace MLton.DirectedGraph

variable {ν σ : Type*} [DecidableEq ν]

/-! ## The client of the search -/

/-- The state of `topologicalSort`: the accumulator, the references of `amVisiting`, and whether `Cycle` has been
raised. -/
structure TopState (ν : Type*) where
  order : List ν
  amVisiting : ν → Bool
  cycle : Bool

/-- `startNode`; it does not set `amVisiting`. -/
def topStart (_ : ν) (s : TopState ν) : TopState ν := s

/-- `nonTree`. -/
def topNonTree (_ w : ν) (s : TopState ν) : TopState ν := if s.amVisiting w then { s with cycle := true } else s

/-- `tree`. -/
def topTree (_ _ : ν) (s : TopState ν) : TopState ν := s

/-- `finish`. -/
def topFinish (n : ν) (s : TopState ν) : TopState ν := { s with order := n :: s.order }

/-- The client. -/
def topParam : DfsParam ν (TopState ν) where
  startNode := topStart
  nonTreeEdge := topNonTree
  treeEdge := topTree
  finishNode := topFinish

/-- The state before the search. -/
def topInit : TopState ν where
  order := []
  amVisiting _ := false
  cycle := false

/-- `topologicalSort`; once `Cycle` is raised, there is no list. -/
def topologicalSort (g : DirectedGraph ν) : Option (List ν) :=
  let s := dfs g topParam topInit
  if s.cycle then none else some s.order

variable {g : DirectedGraph ν}

/-! ## What all four callbacks keep -/

/-- **What the callbacks of a client keep, the search keeps.** -/
theorem visit_keeps {P : DfsParam ν σ} {I : σ → Prop} (hstart : ∀ n s, I s → I (P.startNode n s))
    (hnonTree : ∀ n w s, I s → I (P.nonTreeEdge n w s)) (htree : ∀ n w s, I s → I (P.treeEdge n w s))
    (hfinish : ∀ n s, I s → I (P.finishNode n s)) :
    ∀ (k : ℕ) (st : List ν × σ) (v : ν), I st.2 → I (visit g P k st v).2
  | 0, _, _, h => h
  | k + 1, st, v, h => by
    have hedge : ∀ a, ∀ w ∈ g.successors v, I a.2 → I (visitEdge P (visit g P k) v a w).2 := by
      intro a w _ ha
      unfold visitEdge
      split
      · exact hnonTree v w _ ha
      · exact htree v w _ (visit_keeps hstart hnonTree htree hfinish k a w ha)
    have hfold := Fold.foldl_inv (I := fun a => I a.2) (T := fun _ _ => True) (fun _ => trivial)
      (fun _ _ _ _ _ => trivial) (g.successors v) (v :: st.1, P.startNode v st.2)
      (fun a w hw ha => ⟨hedge a w hw ha, trivial⟩) (hstart v _ h)
    exact hfinish v _ hfold.1

theorem dfs_keeps {P : DfsParam ν σ} {I : σ → Prop} (hstart : ∀ n s, I s → I (P.startNode n s))
    (hnonTree : ∀ n w s, I s → I (P.nonTreeEdge n w s)) (htree : ∀ n w s, I s → I (P.treeEdge n w s))
    (hfinish : ∀ n s, I s → I (P.finishNode n s)) {s : σ} (h : I s) : I (dfs g P s) := by
  have hroot : ∀ a, ∀ n ∈ g.nodes, I a.2 → I (dfsRoot g P a n).2 := by
    intro a n _ ha
    unfold dfsRoot
    split
    · exact ha
    · exact visit_keeps hstart hnonTree htree hfinish _ a n ha
  exact (Fold.foldl_inv (I := fun a : List ν × σ => I a.2) (T := fun _ _ => True) (fun _ => trivial)
    (fun _ _ _ _ _ => trivial) g.nodes ([], s) (fun a n hn ha => ⟨hroot a n hn ha, trivial⟩) h).1

/-- No node is being visited, and `Cycle` has not been raised. -/
structure Quiet (s : TopState ν) : Prop where
  amVisiting : ∀ n, s.amVisiting n = false
  cycle : s.cycle = false

theorem quiet_dfs (g : DirectedGraph ν) : Quiet (dfs g topParam topInit) := by
  refine dfs_keeps (P := topParam) (I := Quiet) (fun n s h => h) (fun n w s h => ?_) (fun n w s h => h)
    (fun n s h => ⟨h.amVisiting, h.cycle⟩) ⟨fun _ => rfl, rfl⟩
  change Quiet (topNonTree n w s)
  rw [topNonTree, h.amVisiting w]
  exact h

/-- **`topologicalSort` never gives up.** -/
theorem topologicalSort_isSome (g : DirectedGraph ν) :
    topologicalSort g = some (dfs g topParam topInit).order := by
  simp [topologicalSort, (quiet_dfs g).cycle]

/-! ## The order -/

/-- The graph has a cycle. -/
def HasCycle (g : DirectedGraph ν) : Prop := ∃ v ∈ g.nodes, Relation.TransGen (Dfs.Edge g.successors) v v

/-- The successors of each node come after it. -/
def Sorted (g : DirectedGraph ν) : List ν → Prop
  | [] => True
  | u :: l => g.successors u ⊆ l ∧ Sorted g l

/-- **A topological order**: each node once, and the source of every edge before its target. -/
structure TopologicalOrder (g : DirectedGraph ν) (l : List ν) : Prop where
  nodup : l.Nodup
  mem : ∀ x, x ∈ l ↔ x ∈ g.nodes
  before : ∀ u ∈ g.nodes, ∀ w ∈ g.successors u, l.idxOf u < l.idxOf w

omit [DecidableEq ν] in
theorem Sorted.successors : ∀ {l : List ν}, Sorted g l → ∀ u ∈ l, g.successors u ⊆ l
  | x :: l, ⟨hx, hl⟩, u, hu, w, hw => by
    obtain rfl | hu := List.mem_cons.mp hu
    · exact List.mem_cons_of_mem _ (hx hw)
    · exact List.mem_cons_of_mem _ (hl.successors u hu hw)

theorem Sorted.idxOf_lt : ∀ {l : List ν}, Sorted g l → l.Nodup → ∀ u ∈ l, ∀ w ∈ g.successors u,
    l.idxOf u < l.idxOf w
  | x :: l, ⟨hx, hl⟩, hnodup, u, hu, w, hw => by
    obtain ⟨hnot, hnodup⟩ := List.nodup_cons.mp hnodup
    have hne : ∀ y ∈ l, x ≠ y := fun y hy heq => hnot (heq ▸ hy)
    obtain rfl | hu := List.mem_cons.mp hu
    · rw [List.idxOf_cons_self, List.idxOf_cons_ne _ (hne w (hx hw))]
      exact Nat.succ_pos _
    · rw [List.idxOf_cons_ne _ (hne u hu), List.idxOf_cons_ne _ (hne w (hl.successors u hu hw))]
      exact Nat.succ_lt_succ (hl.idxOf_lt hnodup u hu w hw)

/-! ## Graphs without a cycle -/

/-- The search inside of the calls at `gray`: a visited node is on the way, or it has been left. -/
structure Searching (g : DirectedGraph ν) (gray vis : List ν) (s : TopState ν) : Prop where
  within : vis ⊆ g.nodes
  visited : ∀ x, x ∈ vis ↔ x ∈ gray ∨ x ∈ s.order
  left : ∀ x ∈ gray, x ∉ s.order
  nodup : s.order.Nodup
  sorted : Sorted g s.order

variable {gray vis : List ν} {s : TopState ν} {v : ν}

omit [DecidableEq ν] in
theorem Searching.start (h : Searching g gray vis s) (hv : v ∉ vis) (hmem : v ∈ g.nodes) :
    Searching g (v :: gray) (v :: vis) s where
  within := List.cons_subset.mpr ⟨hmem, h.within⟩
  visited x := by rw [List.mem_cons, List.mem_cons, h.visited x, or_assoc]
  left x hx := by
    obtain rfl | hx := List.mem_cons.mp hx
    · exact fun hx => hv ((h.visited x).mpr (.inr hx))
    · exact h.left x hx
  nodup := h.nodup
  sorted := h.sorted

omit [DecidableEq ν] in
/-- Leaving a node: its successors have been left, as one on the way would close a cycle. -/
theorem Searching.finish (h : Searching g (v :: gray) vis s) (hv : v ∉ gray)
    (hdone : g.successors v ⊆ vis) (hgray : ∀ x ∈ v :: gray, x ∉ g.successors v) :
    Searching g gray vis (topFinish v s) where
  within := h.within
  visited x := by
    rw [h.visited x, List.mem_cons, topFinish, List.mem_cons]
    tauto
  left x hx := by
    rw [topFinish, List.mem_cons, not_or]
    exact ⟨fun heq => hv (heq ▸ hx), h.left x (List.mem_cons_of_mem _ hx)⟩
  nodup := List.nodup_cons.mpr ⟨h.left v (List.mem_cons_self ..), h.nodup⟩
  sorted := ⟨fun w hw => ((h.visited w).mp (hdone hw)).resolve_left fun hwg => hgray w hwg hw, h.sorted⟩

/-- **A visit leaves its node, with all nodes on the way as before.** -/
theorem visit_topological (hg : g.Closed) (hacyclic : ¬ HasCycle g) :
    ∀ (k : ℕ) (gray vis : List ν) (s : TopState ν) (v : ν), Searching g gray vis s → Quiet s → v ∉ vis → v ∈ g.nodes →
      (∀ x ∈ gray, Relation.TransGen (Dfs.Edge g.successors) x v) → Dfs.unvisited g.nodes vis < k →
        Searching g gray (visit g topParam k (vis, s) v).1 (visit g topParam k (vis, s) v).2 ∧
          Quiet (visit g topParam k (vis, s) v).2 ∧ v :: vis ⊆ (visit g topParam k (vis, s) v).1
  | 0, _, _, _, _, _, _, _, _, _, hk => absurd hk (Nat.not_lt_zero _)
  | k + 1, gray, vis, s, v, h, hquiet, hv, hmem, hgray, hk => by
    have hlt := Dfs.unvisited_cons_lt hmem hv
    -- the edges one by one
    have hedges : ∀ (ws : List ν) (st : List ν × TopState ν), ws ⊆ g.successors v →
        Searching g (v :: gray) st.1 st.2 → Quiet st.2 → v :: vis ⊆ st.1 →
        Searching g (v :: gray) (ws.foldl (visitEdge topParam (visit g topParam k) v) st).1
            (ws.foldl (visitEdge topParam (visit g topParam k) v) st).2 ∧
          Quiet (ws.foldl (visitEdge topParam (visit g topParam k) v) st).2 ∧
          st.1 ⊆ (ws.foldl (visitEdge topParam (visit g topParam k) v) st).1 ∧
          ws ⊆ (ws.foldl (visitEdge topParam (visit g topParam k) v) st).1 := by
      intro ws
      induction ws with
      | nil => exact fun st _ h hq _ => ⟨h, hq, List.Subset.refl _, by simp⟩
      | cons w ws ih =>
        intro st hws h hq hsub
        have hw : w ∈ g.successors v := hws (List.mem_cons_self ..)
        have hnext : Searching g (v :: gray) (visitEdge topParam (visit g topParam k) v st w).1
              (visitEdge topParam (visit g topParam k) v st w).2 ∧
            Quiet (visitEdge topParam (visit g topParam k) v st w).2 ∧
            w :: st.1 ⊆ (visitEdge topParam (visit g topParam k) v st w).1 := by
          unfold visitEdge
          split
          · rename_i hold
            have hsame : topParam.nonTreeEdge v w st.2 = st.2 := by
              change topNonTree v w st.2 = st.2
              rw [topNonTree, hq.amVisiting w]
              rfl
            rw [hsame]
            exact ⟨h, hq, List.cons_subset.mpr ⟨hold, List.Subset.refl _⟩⟩
          · rename_i hnew
            refine visit_topological hg hacyclic k (v :: gray) st.1 st.2 w h hq hnew (hg v hmem hw) ?_ ?_
            · intro x hx
              obtain rfl | hx := List.mem_cons.mp hx
              · exact .single hw
              · exact (hgray x hx).tail hw
            · have := Dfs.unvisited_anti (U := g.nodes) hsub
              omega
        obtain ⟨hnext, hqnext, hsubnext⟩ := hnext
        have hst := (List.cons_subset.mp hsubnext).2
        obtain ⟨hs, hq', hsub', hall⟩ := ih _ (fun x hx => hws (List.mem_cons_of_mem _ hx)) hnext hqnext
          (List.Subset.trans hsub hst)
        exact ⟨hs, hq', List.Subset.trans hst hsub',
          List.cons_subset.mpr ⟨hsub' (hsubnext (List.mem_cons_self ..)), hall⟩⟩
    obtain ⟨hs, hq, hsub, hdone⟩ := hedges (g.successors v) (v :: vis, s) (List.Subset.refl _)
      (h.start hv hmem) hquiet (List.Subset.refl _)
    have hvgray : v ∉ gray := fun hx => hv ((h.visited v).mpr (.inl hx))
    refine ⟨hs.finish hvgray hdone fun x hx hxv => ?_, ⟨hq.amVisiting, hq.cycle⟩, hsub⟩
    obtain rfl | hx := List.mem_cons.mp hx
    · exact hacyclic ⟨x, hmem, .single hxv⟩
    · exact hacyclic ⟨x, h.within ((h.visited x).mpr (.inl hx)), (hgray x hx).tail hxv⟩

/-- **Without a cycle, the result is a topological order.** -/
theorem topologicalSort_order (hg : g.Closed) (hacyclic : ¬ HasCycle g) :
    TopologicalOrder g (dfs g topParam topInit).order := by
  have hroots : ∀ (ns : List ν) (st : List ν × TopState ν), ns ⊆ g.nodes → Searching g [] st.1 st.2 → Quiet st.2 →
      Searching g [] (ns.foldl (dfsRoot g topParam) st).1 (ns.foldl (dfsRoot g topParam) st).2 ∧
        st.1 ⊆ (ns.foldl (dfsRoot g topParam) st).1 ∧ ns ⊆ (ns.foldl (dfsRoot g topParam) st).1 := by
    intro ns
    induction ns with
    | nil => exact fun st _ h _ => ⟨h, List.Subset.refl _, by simp⟩
    | cons n ns ih =>
      intro st hns h hq
      have hroot : Searching g [] (dfsRoot g topParam st n).1 (dfsRoot g topParam st n).2 ∧
          Quiet (dfsRoot g topParam st n).2 ∧ n :: st.1 ⊆ (dfsRoot g topParam st n).1 := by
        unfold dfsRoot
        split
        · rename_i hmem
          exact ⟨h, hq, List.cons_subset.mpr ⟨hmem, List.Subset.refl _⟩⟩
        · rename_i hmem
          exact visit_topological hg hacyclic (g.nodes.length + 1) [] st.1 st.2 n h hq hmem
            (hns (List.mem_cons_self ..)) (by simp) (Nat.lt_succ_of_le (List.length_filter_le _ _))
      obtain ⟨hs, hq', hsub⟩ := hroot
      obtain ⟨hs', hsub', hall⟩ := ih _ (fun x hx => hns (List.mem_cons_of_mem _ hx)) hs hq'
      exact ⟨hs', fun x hx => hsub' (hsub (List.mem_cons_of_mem _ hx)),
        List.cons_subset.mpr ⟨hsub' (hsub (List.mem_cons_self ..)), hall⟩⟩
  obtain ⟨hs, -, hall⟩ := hroots g.nodes ([], topInit) (List.Subset.refl _)
    ⟨by simp, by simp [topInit], by simp, by simp [topInit], trivial⟩ ⟨fun _ => rfl, rfl⟩
  change Searching g [] (dfsNodes g g.nodes topParam topInit).1 (dfs g topParam topInit) at hs
  have hmem : ∀ x, x ∈ (dfs g topParam topInit).order ↔ x ∈ g.nodes := by
    intro x
    constructor
    · exact fun hx => hs.within ((hs.visited x).mpr (.inr hx))
    · exact fun hx => ((hs.visited x).mp (hall hx)).resolve_left List.not_mem_nil
  exact ⟨hs.nodup, hmem, fun u hu w hw => hs.sorted.idxOf_lt hs.nodup u ((hmem u).mpr hu) w hw⟩

/-- What `topologicalSort` is for. -/
structure SortsTopologically (g : DirectedGraph ν) (r : Option (List ν)) : Prop where
  none_iff : r = none ↔ HasCycle g
  order : ∀ l, r = some l → TopologicalOrder g l

/-- **The result is right if and only if the graph has no cycle.** -/
theorem topologicalSort_correct_iff (hg : g.Closed) :
    SortsTopologically g (topologicalSort g) ↔ ¬ HasCycle g := by
  rw [topologicalSort_isSome]
  constructor
  · intro h hcycle
    exact absurd (h.none_iff.mpr hcycle) (by simp)
  · intro hacyclic
    refine ⟨by simpa using hacyclic, fun l hl => ?_⟩
    obtain rfl := Option.some.inj hl
    exact topologicalSort_order hg hacyclic

/-- Three nodes in a row. -/
theorem topologicalSort_row :
    SortsTopologically (⟨[2, 1, 0], fun n => if n < 2 then [n + 1] else []⟩ : DirectedGraph ℕ)
      (topologicalSort ⟨[2, 1, 0], fun n => if n < 2 then [n + 1] else []⟩) := by
  refine (topologicalSort_correct_iff (by unfold Closed; decide)).mpr ?_
  rintro ⟨v, -, h⟩
  have hlt : ∀ u w : ℕ, Dfs.Edge (fun n => if n < 2 then [n + 1] else []) u w → u < w := by
    intro u w huw
    by_cases hu : u < 2 <;> simp [Dfs.Edge, hu] at huw
    omega
  have h : Relation.TransGen (· < ·) v v := Relation.TransGen.mono hlt _ _ h
  rw [Relation.transGen_eq_self] at h
  exact Nat.lt_irrefl v h

/-- Two nodes with an edge each way, and one node with an edge to itself: the cycles are not seen. -/
theorem topologicalSort_cycles :
    topologicalSort (⟨[0, 1], fun n => [1 - n]⟩ : DirectedGraph ℕ) = some [0, 1] ∧
      HasCycle (⟨[0, 1], fun n => [1 - n]⟩ : DirectedGraph ℕ) ∧
      topologicalSort (⟨[0], fun n => [n]⟩ : DirectedGraph ℕ) = some [0] ∧
      HasCycle (⟨[0], fun n => [n]⟩ : DirectedGraph ℕ) := by
  refine ⟨by decide, ⟨0, by simp, ?_⟩, by decide, ⟨0, by simp, .single (List.mem_singleton.mpr rfl)⟩⟩
  exact .tail (.single (List.mem_singleton.mpr rfl)) (List.mem_singleton.mpr rfl)

end MLton.DirectedGraph
