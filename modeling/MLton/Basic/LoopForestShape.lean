import MLton.Basic.LoopForest

/-!
# Basic/LoopForestShape — the forest that `loopForestSteensgaard` builds is one of loops

The level above a loop is a set of nodes with edges among them; the level below it is the loop itself, without the
edges into its headers.

* `LoopForest.WellFormed` — a forest of one level;
* `treeFor_wellFormed` — what `treeFor` builds is one;
* `loopForestSteensgaard_correct` — the construction ends, with a forest that every cycle meets a header of.
-/

namespace MLton

universe u

mutual

/-- The nodes of all `notInLoop` vectors of a forest. -/
def LoopForest.nodes {α : Type u} : LoopForest α → List α
  | .mk loops notInLoop => notInLoop ++ loops.nodes

/-- The nodes of all `notInLoop` vectors of a list of loops. -/
def Loops.nodes {α : Type u} : Loops α → List α
  | .nil => []
  | .cons _ child rest => child.nodes ++ rest.nodes

end

/-- The edges that stay among some nodes. -/
def Within {α : Type u} (E : α → α → Prop) (ns : List α) (u v : α) : Prop := E u v ∧ u ∈ ns ∧ v ∈ ns

/-- **A loop of a level**: its nodes are strongly connected, by at least one edge, and its headers are those of them
that an edge from outside leads to, and the root. -/
structure IsLoop {α : Type u} (E : α → α → Prop) (root : α → Prop) (headers ns : List α) : Prop where
  connected : ∀ x ∈ ns, ∀ y ∈ ns, Relation.TransGen (Within E ns) x y
  mem_headers : ∀ v, v ∈ headers ↔ v ∈ ns ∧ (root v ∨ ∃ u, u ∉ ns ∧ E u v)
  nonempty : headers ≠ []

mutual

/-- **A forest of a level with nodes `N` and edges `E`**: every node occurs once. -/
def LoopForest.WellFormed {α : Type u} (N : α → Prop) (E : α → α → Prop) (root : α → Prop) : LoopForest α → Prop
  | .mk loops notInLoop => (notInLoop ++ loops.nodes).Nodup ∧ (∀ v, v ∈ notInLoop ++ loops.nodes ↔ N v) ∧
      loops.WellFormed E root

/-- Loops of a level, the child of each being a forest of the level below. -/
def Loops.WellFormed {α : Type u} (E : α → α → Prop) (root : α → Prop) : Loops α → Prop
  | .nil => True
  | .cons headers child rest => IsLoop E root headers child.nodes ∧
      child.WellFormed (· ∈ child.nodes) (fun u v => Within E child.nodes u v ∧ v ∉ headers) (fun _ => False) ∧
      rest.WellFormed E root

end

variable {ν : Type u}

theorem LoopForest.WellFormed.mem {N : ν → Prop} {E : ν → ν → Prop} {root : ν → Prop} {t : LoopForest ν}
    (h : t.WellFormed N E root) (v : ν) : v ∈ t.nodes ↔ N v := by
  cases t
  exact h.2.1 v

theorem LoopForest.WellFormed.nodup {N : ν → Prop} {E : ν → ν → Prop} {root : ν → Prop} {t : LoopForest ν}
    (h : t.WellFormed N E root) : t.nodes.Nodup := by
  cases t
  exact h.1

namespace DirectedGraph

variable [DecidableEq ν] {g : DirectedGraph ν} {sccs : List (List ν)} {isHeader : ν → Bool}

/-- The edges of a graph. -/
def IsEdge (g : DirectedGraph ν) (u v : ν) : Prop := u ∈ g.nodes ∧ v ∈ g.successors u

/-- A component of more than one node is strongly connected. -/
theorem connected_of_component (hc : Components g sccs) {ns : List ν} (hns : ns ∈ sccs)
    (htwo : 2 ≤ ns.length) : ∀ x ∈ ns, ∀ y ∈ ns, Relation.TransGen (Within g.IsEdge ns) x y := by
  have hmem := hc.settled.mem_iff hc.nodup ns hns
  have hnode : ∀ x ∈ ns, x ∈ g.nodes := fun x hx => (hc.mem x).mp (List.mem_flatten.mpr ⟨ns, hns, hx⟩)
  -- A path between two nodes of the component stays there.
  have hpath : ∀ x ∈ ns, ∀ y, g.Reaches x y → g.Reaches y x → Relation.ReflTransGen (Within g.IsEdge ns) x y := by
    intro x hx y hxy
    induction hxy with
    | refl => exact fun _ => .refl
    | @tail u w hxu huw ih =>
      intro hwx
      have hux : g.Reaches u x := hwx.head huw
      have hu : u ∈ ns := (hmem x hx u).mpr ⟨hxu, hux⟩
      have hw : w ∈ ns := (hmem x hx w).mpr ⟨hxu.tail huw, hwx⟩
      exact (ih hux).tail ⟨⟨hnode u hu, huw⟩, hu, hw⟩
  have hne : ∀ x ∈ ns, ∀ y ∈ ns, x ≠ y → Relation.TransGen (Within g.IsEdge ns) x y := by
    intro x hx y hy hxy
    obtain ⟨h1, h2⟩ := (hmem x hx y).mp hy
    exact (Relation.reflTransGen_iff_eq_or_transGen.mp (hpath x hx y h1 h2)).resolve_left fun h => hxy h.symm
  intro x hx y hy
  by_cases hxy : x = y
  · subst hxy
    obtain ⟨z, hz, hzx⟩ : ∃ z ∈ ns, x ≠ z := by
      by_contra hall
      push Not at hall
      have hle : ns.length ≤ [x].length :=
        (List.Nodup.subperm ((List.nodup_flatten.mp hc.nodup).1 ns hns) fun z hz => by simp [hall z hz]).length_le
      simp only [List.length_singleton] at hle
      omega
    exact (hne x hx z hz hzx).trans (hne z hz x hx hzx.symm)
  · exact hne x hx y hy hxy

/-- The headers of a component: where edges from other components lead to, and the root. -/
theorem markHeaders_iff (hc : Components g sccs) {ns : List ν} (hns : ns ∈ sccs) {v : ν} (hv : v ∈ ns) :
    markHeaders g sccs isHeader v = true ↔ isHeader v = true ∨ ∃ u, u ∉ ns ∧ g.IsEdge u v := by
  simp only [markHeaders, Bool.or_eq_true, List.any_eq_true, decide_eq_true_eq]
  refine or_congr_right ?_
  have hclass : ∀ u ∈ g.nodes, (classOf sccs u ≠ classOf sccs v ↔ u ∉ ns) := by
    intro u hu
    rw [ne_comm, Ne, classOf_eq_iff hc.nodup ns hns v hv u ((hc.mem u).mpr hu)]
  constructor
  · rintro ⟨u, hu, huv, hne⟩
    exact ⟨u, (hclass u hu).mp hne, hu, huv⟩
  · rintro ⟨u, hne, hu, huv⟩
    exact ⟨u, hu, huv, (hclass u hu).mpr hne⟩

/-- A node with an edge to itself is a header: a path from a seed comes from outside. -/
theorem header_of_selfLoop (hg : g.Closed) (hseed : Seeded g isHeader) {n : ν} (hn : n ∈ g.nodes)
    (hself : n ∈ g.successors n) : isHeader n = true ∨ ∃ u, u ∉ [n] ∧ g.IsEdge u n := by
  obtain ⟨s, hs, hsn, hseed⟩ := hseed n hn
  by_cases heq : s = n
  · subst heq
    exact hseed.imp id fun hnone => absurd hself (hnone s hs)
  · obtain ⟨x, y, hsx, hx, hxy, hy⟩ := exists_entry hsn (by simpa using heq : s ∉ [n]) (by simp)
    obtain rfl := List.mem_singleton.mp hy
    exact .inr ⟨x, hx, reaches_nodes hg hsx hs, hxy⟩

/-- The level below a loop is the subgraph. -/
theorem isEdge_subgraph (hg : g.Closed) (hc : Components g sccs) {ns : List ν} (hns : ns ∈ sccs) :
    (subgraph g sccs isHeader ns).IsEdge =
      fun u v => Within g.IsEdge ns u v ∧ v ∉ (ns.filter isHeader).reverse := by
  funext u v
  refine propext ⟨fun ⟨hu, huv⟩ => ?_, fun ⟨⟨⟨_, huv⟩, hu, hv⟩, hnot⟩ => ?_⟩
  · have hu : u ∈ ns := List.mem_reverse.mp hu
    obtain ⟨huv, hv, hfalse⟩ := (mem_successors_subgraph hg hc.nodup hc.mem hns hu).mp huv
    refine ⟨⟨⟨(hc.mem u).mp (List.mem_flatten.mpr ⟨ns, hns, hu⟩), huv⟩, hu, hv⟩, ?_⟩
    simp [hfalse]
  · refine ⟨List.mem_reverse.mpr hu, (mem_successors_subgraph hg hc.nodup hc.mem hns hu).mpr ⟨huv, hv, ?_⟩⟩
    simpa [hv] using hnot

/-- **One component**: its nodes are added, and its loop is one. -/
theorem addComponent_wellFormed {tree : DirectedGraph ν → Option (LoopForest ν)} (hg : g.Closed)
    (hc : Components g sccs) (hseed : Seeded g isHeader) {ns : List ν} (hns : ns ∈ sccs)
    (htree : ∀ t, 2 ≤ ns.length → tree (subgraph g sccs (markHeaders g sccs isHeader) ns) = some t →
      t.WellFormed (· ∈ ns) (subgraph g sccs (markHeaders g sccs isHeader) ns).IsEdge fun _ => False)
    {acc acc' : Loops ν × List ν} (hacc : acc.1.WellFormed g.IsEdge fun v => isHeader v = true)
    (h : addComponent tree g sccs (markHeaders g sccs isHeader) acc ns = some acc') :
    (acc'.1.WellFormed g.IsEdge fun v => isHeader v = true) ∧
      (acc'.2 ++ acc'.1.nodes).Perm (ns ++ (acc.2 ++ acc.1.nodes)) := by
  have hnode : ∀ x ∈ ns, x ∈ g.nodes := fun x hx => (hc.mem x).mp (List.mem_flatten.mpr ⟨ns, hns, hx⟩)
  match ns, hns, htree, h with
  | [], hns, _, _ => exact absurd rfl (hc.settled.ne_nil [] hns)
  | [n], hns, _, h =>
    simp only [addComponent] at h
    split at h
    · rename_i hself
      obtain rfl := (Option.some.inj h).symm
      have hn : n ∈ g.nodes := hnode n (List.mem_singleton.mpr rfl)
      refine ⟨⟨⟨?_, fun v => ?_, by simp⟩, ⟨by simp [Loops.nodes], by simp [LoopForest.single, LoopForest.nodes,
        Loops.nodes], trivial⟩, hacc⟩, ?_⟩
      · intro x hx y hy
        obtain rfl : x = n := by simpa [LoopForest.single, LoopForest.nodes, Loops.nodes] using hx
        obtain rfl : y = x := by simpa [LoopForest.single, LoopForest.nodes, Loops.nodes] using hy
        exact .single ⟨⟨hn, hself⟩, hx, hx⟩
      · change v ∈ [n] ↔ v ∈ [n] ∧ (isHeader v = true ∨ ∃ u, u ∉ [n] ∧ g.IsEdge u v)
        refine ⟨fun hv => ⟨hv, ?_⟩, fun hv => hv.1⟩
        obtain rfl := List.mem_singleton.mp hv
        exact header_of_selfLoop hg hseed hn hself
      · simp [Loops.nodes, LoopForest.single, LoopForest.nodes, List.perm_middle]
    · obtain rfl := (Option.some.inj h).symm
      exact ⟨hacc, .refl _⟩
  | n :: m :: ns, hns, htree, h =>
    simp only [addComponent, Option.bind_eq_bind, Option.bind_eq_some_iff] at h
    obtain ⟨t, ht, h⟩ := h
    obtain rfl := (Option.some.inj h).symm
    have hchild := htree t (by simp) ht
    set C := n :: m :: ns with hC
    have hnodes : ∀ v, v ∈ t.nodes ↔ v ∈ C := hchild.mem
    have hmem : (· ∈ t.nodes) = (· ∈ C) := funext fun v => propext (hnodes v)
    have hwithin : Within g.IsEdge t.nodes = Within g.IsEdge C := by
      funext u v
      simp only [Within, hnodes]
    have hnd : C.Nodup := (List.nodup_flatten.mp hc.nodup).1 C hns
    have hheaders : ∀ v, v ∈ (C.filter (markHeaders g sccs isHeader)).reverse ↔
        v ∈ C ∧ (isHeader v = true ∨ ∃ u, u ∉ C ∧ g.IsEdge u v) := by
      intro v
      rw [List.mem_reverse, List.mem_filter]
      exact and_congr_right fun hv => markHeaders_iff hc hns hv
    refine ⟨⟨⟨?_, ?_, ?_⟩, ?_, hacc⟩, ?_⟩
    · rw [hwithin]
      intro x hx y hy
      exact connected_of_component hc hns (by simp [hC]) x ((hnodes x).mp hx) y ((hnodes y).mp hy)
    · intro v
      rw [hheaders v]
      simp only [hnodes]
    · have hne : n ≠ m := fun heq => by simp [hC, heq] at hnd
      obtain ⟨x, hx, hxh⟩ := exists_header hg hc hseed hns (u := n) (v := m) (by simp [hC]) (by simp [hC]) hne
      exact List.ne_nil_of_mem (List.mem_reverse.mpr (List.mem_filter.mpr ⟨hx, hxh⟩))
    · rw [hmem, hwithin, ← isEdge_subgraph hg hc hns]
      exact hchild
    · have hperm : t.nodes.Perm C := (List.perm_ext_iff_of_nodup hchild.nodup hnd).mpr hnodes
      change (acc.2 ++ (t.nodes ++ acc.1.nodes)).Perm _
      rw [← List.append_assoc, ← List.append_assoc]
      exact (List.perm_append_comm.trans (hperm.append_right _)).append_right _

/-- **What `treeFor` builds is a forest of its graph.** -/
theorem treeFor_wellFormed : ∀ (k : ℕ) (g : DirectedGraph ν) (isHeader : ν → Bool) (t : LoopForest ν), g.Closed →
    Seeded g isHeader → treeFor k g isHeader = some t →
      t.WellFormed (· ∈ g.nodes) g.IsEdge fun v => isHeader v = true
  | 0, _, _, _, _, _, h => by simp [treeFor] at h
  | k + 1, g, isHeader, t, hg, hseed, h => by
    obtain ⟨sccs, hsccs, hnd, hmem, hsettled⟩ := stronglyConnectedComponents_spec hg
    have hc : Components g sccs := ⟨hnd, hmem, hsettled⟩
    simp only [treeFor, hsccs, Option.bind_eq_bind, Option.bind_some, Option.bind_eq_some_iff] at h
    obtain ⟨⟨loops, notInLoop⟩, hfold, h⟩ := h
    obtain rfl := (Option.some.inj h).symm
    have hchild : ∀ ns ∈ sccs, ∀ t, 2 ≤ ns.length →
        treeFor k (subgraph g sccs (markHeaders g sccs isHeader) ns) (fun _ => false) = some t →
          t.WellFormed (· ∈ ns) (subgraph g sccs (markHeaders g sccs isHeader) ns).IsEdge fun _ => False := by
      intro ns hns t htwo ht
      obtain ⟨u, v, hu, hv, huv⟩ : ∃ u v, u ∈ ns ∧ v ∈ ns ∧ u ≠ v := by
        have hndn := (List.nodup_flatten.mp hnd).1 ns hns
        rcases ns with _ | ⟨u, _ | ⟨v, ns⟩⟩
        · simp at htwo
        · simp at htwo
        · exact ⟨u, v, by simp, by simp, by rintro rfl; simp at hndn⟩
      obtain ⟨x, hx, hheader⟩ := exists_header hg hc hseed hns hu hv huv
      have hwf := treeFor_wellFormed k _ _ t (closed_subgraph hg hnd hmem hns) (seeded_subgraph hg hc hns hx hheader) ht
      have hnodes : (· ∈ (subgraph g sccs (markHeaders g sccs isHeader) ns).nodes) = (· ∈ ns) :=
        funext fun v => propext List.mem_reverse
      simpa [hnodes] using hwf
    obtain ⟨hloops, hperm⟩ : (loops.WellFormed g.IsEdge fun v => isHeader v = true) ∧
        (notInLoop ++ loops.nodes).Perm sccs.flatten := by
      refine Fold.foldlM_done (d := []) (I := fun d (a : Loops ν × List ν) =>
        (a.1.WellFormed g.IsEdge fun v => isHeader v = true) ∧ (a.2 ++ a.1.nodes).Perm d.flatten)
        (fun a a' d ns hpre ha' => ?_) hfold ⟨trivial, by simp [Loops.nodes]⟩
      rintro ⟨ha, hd⟩
      have hns : ns ∈ sccs := hpre.subset (by simp)
      obtain ⟨hwf, hp⟩ := addComponent_wellFormed hg hc hseed hns (hchild ns hns) ha ha'
      refine ⟨hwf, hp.trans ?_⟩
      rw [List.flatten_append, List.flatten_singleton]
      exact (hd.append_left ns).trans List.perm_append_comm
    exact ⟨hperm.nodup_iff.mpr hnd, fun v => hperm.mem_iff.trans (hmem v), hloops⟩

/-- **`loopForestSteensgaard` is correct**: where all nodes are reachable from the root the construction ends, with a
forest of the graph, and every cycle goes through a header. -/
theorem loopForestSteensgaard_correct {root : ν} (hg : g.Closed) (hroot : root ∈ g.nodes)
    (hreach : ∀ v ∈ g.nodes, g.Reaches root v) :
    ∃ t, loopForestSteensgaard (g.nodes.length + 1) g root = some t ∧
      t.WellFormed (· ∈ g.nodes) g.IsEdge (fun v => v = root) ∧
      ∀ v ∈ g.nodes, ¬ Relation.TransGen (Avoids g t.headers) v v := by
  obtain ⟨t, ht⟩ := loopForest_total hg hroot hreach
  have hseed : Seeded g fun n => n = root := fun v hv => ⟨root, hroot, hreach v hv, .inl (by simp)⟩
  have hwf := treeFor_wellFormed _ g _ t hg hseed ht
  exact ⟨t, ht, by simpa using hwf, fun v hv => loopForest_covers hg ht hv⟩

/-- A cycle of two nodes, and a node that it leads to. -/
theorem loopForestSteensgaard_lasso : ∃ t, loopForestSteensgaard 4
    (⟨[2, 1, 0], fun n => if n = 0 then [1] else if n = 1 then [0, 2] else []⟩ : DirectedGraph ℕ) 0 = some t ∧
      t.nodes.Nodup := by
  obtain ⟨t, ht, hwf, -⟩ := loopForestSteensgaard_correct
    (g := ⟨[2, 1, 0], fun n => if n = 0 then [1] else if n = 1 then [0, 2] else []⟩) (by unfold Closed; decide)
    (show 0 ∈ [2, 1, 0] by simp) (by
      have h01 : Dfs.Edge (fun n => if n = 0 then [1] else if n = 1 then [0, 2] else []) 0 1 := by simp [Dfs.Edge]
      have h12 : Dfs.Edge (fun n => if n = 0 then [1] else if n = 1 then [0, 2] else []) 1 2 := by simp [Dfs.Edge]
      simp only [List.mem_cons, List.not_mem_nil, or_false, forall_eq_or_imp, forall_eq]
      exact ⟨.tail (.single h01) h12, .single h01, .refl⟩)
  exact ⟨t, ht, hwf.nodup⟩

end DirectedGraph

end MLton
