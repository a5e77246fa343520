import Mathlib.Data.List.Perm.Subperm
import MLton.Basic.StrongComponents

/-!
# Basic/LoopForest — `loopForestSteensgaard`

The forest of the loops of a graph: the strong components, the headers of each (its nodes with an edge
from outside), and the forest of what is left of it without the edges into headers.

* `loopForest_covers` — every cycle of the graph goes through a header.
* `loopForest_total` — the construction ends when every node is reachable from the root.
-/

namespace MLton

universe u

mutual

/-- `LoopForest.t`. -/
inductive LoopForest (α : Type u) where
  | mk (loops : Loops α) (notInLoop : List α)

/-- The loops of a forest: the headers of each, and its child. -/
inductive Loops (α : Type u) where
  | nil
  | cons (headers : List α) (child : LoopForest α) (rest : Loops α)

end

/-- `LoopForest.single`. -/
def LoopForest.single {α : Type u} (n : α) : LoopForest α := .mk .nil [n]

mutual

/-- All headers of a forest. -/
def LoopForest.headers {α : Type u} : LoopForest α → List α
  | .mk loops _ => loops.headers

/-- All headers of a list of loops. -/
def Loops.headers {α : Type u} : Loops α → List α
  | .nil => []
  | .cons hs child rest => hs ++ child.headers ++ rest.headers

end

namespace DirectedGraph

variable {ν : Type u} [DecidableEq ν]

/-- `class`: the index of the component a node is in. -/
def classOf (sccs : List (List ν)) (n : ν) : ℕ := sccs.findIdx fun ns => n ∈ ns

/-- `isHeader`, once the edges from other components have been seen. -/
def markHeaders (g : DirectedGraph ν) (sccs : List (List ν)) (isHeader : ν → Bool) (v : ν) : Bool :=
  isHeader v || g.nodes.any fun n => v ∈ g.successors n ∧ classOf sccs n ≠ classOf sccs v

/-- The subgraph of a component, without the edges into headers.  A new node stands for its
`original`. -/
def subgraph (g : DirectedGraph ν) (sccs : List (List ν)) (isHeader : ν → Bool) (ns : List ν) :
    DirectedGraph ν where
  nodes := ns.reverse
  successors := fun u => ((g.successors u).filter fun v =>
    classOf sccs u = classOf sccs v ∧ isHeader v = false).reverse

/-- The body of the loop over the components.  The first argument is the recursive call. -/
def addComponent (treeFor : DirectedGraph ν → Option (LoopForest ν)) (g : DirectedGraph ν)
    (sccs : List (List ν)) (isHeader : ν → Bool) (acc : Loops ν × List ν) (ns : List ν) :
    Option (Loops ν × List ν) :=
  match ns with
  | [n] =>
    if n ∈ g.successors n then some (.cons [n] (.single n) acc.1, acc.2)
    else some (acc.1, n :: acc.2)
  | ns => do
    let child ← treeFor (subgraph g sccs isHeader ns)
    return (.cons (ns.filter isHeader).reverse child acc.1, acc.2)

/-- `treeFor`.  The number bounds the depth of the recursion, which need not end. -/
def treeFor : ℕ → DirectedGraph ν → (ν → Bool) → Option (LoopForest ν)
  | 0, _, _ => none
  | k + 1, g, isHeader => do
    let sccs ← stronglyConnectedComponents g
    let (loops, notInLoop) ← sccs.foldlM
      (addComponent (fun g => treeFor k g fun _ => false) g sccs (markHeaders g sccs isHeader))
      (.nil, [])
    return .mk loops notInLoop

/-- `loopForestSteensgaard`. -/
def loopForestSteensgaard (k : ℕ) (g : DirectedGraph ν) (root : ν) : Option (LoopForest ν) :=
  treeFor k g fun n => n = root

variable {g : DirectedGraph ν} {sccs : List (List ν)} {isHeader : ν → Bool}

/-! ## Components as classes -/

theorem classOf_eq_iff : ∀ {sccs : List (List ν)}, sccs.flatten.Nodup → ∀ ns ∈ sccs, ∀ u ∈ ns,
    ∀ v ∈ sccs.flatten, (classOf sccs u = classOf sccs v ↔ v ∈ ns)
  | [], _, _, hns, _, _, _, _ => by simp at hns
  | C :: cs, hnd, ns, hns, u, hu, v, hv => by
    rw [List.flatten_cons, List.nodup_append] at hnd
    simp only [classOf, List.findIdx_cons]
    obtain rfl | hns := List.mem_cons.mp hns
    · by_cases hvC : v ∈ ns <;> simp [hu, hvC]
    · have huC : u ∉ C := fun h => hnd.2.2 u h u (List.mem_flatten.mpr ⟨ns, hns, hu⟩) rfl
      by_cases hvC : v ∈ C
      · have hvns : v ∉ ns := fun h => hnd.2.2 v hvC v (List.mem_flatten.mpr ⟨ns, hns, h⟩) rfl
        simp [huC, hvC, hvns]
      · have hvcs : v ∈ cs.flatten := by simpa [hvC] using hv
        have ih := classOf_eq_iff hnd.2.1 ns hns u hu v hvcs
        simpa [huC, hvC, classOf] using ih

/-- In a subgraph, the edges are those of the graph within the component, except into headers. -/
theorem mem_successors_subgraph (hg : g.Closed) (hnd : sccs.flatten.Nodup)
    (hmem : ∀ x, x ∈ sccs.flatten ↔ x ∈ g.nodes) {ns : List ν} (hns : ns ∈ sccs) {u v : ν}
    (hu : u ∈ ns) : v ∈ (subgraph g sccs isHeader ns).successors u ↔
      v ∈ g.successors u ∧ v ∈ ns ∧ isHeader v = false := by
  have hunodes : u ∈ g.nodes := (hmem u).mp (List.mem_flatten.mpr ⟨ns, hns, hu⟩)
  simp only [subgraph, List.mem_reverse, List.mem_filter, decide_eq_true_eq]
  refine and_congr_right fun huv => and_congr_left fun _ => ?_
  exact classOf_eq_iff hnd ns hns u hu v ((hmem v).mpr (hg u hunodes huv))

theorem closed_subgraph (hg : g.Closed) (hnd : sccs.flatten.Nodup)
    (hmem : ∀ x, x ∈ sccs.flatten ↔ x ∈ g.nodes) {ns : List ν} (hns : ns ∈ sccs) :
    (subgraph g sccs isHeader ns).Closed := by
  intro u hu v hv
  have hu : u ∈ ns := List.mem_reverse.mp hu
  exact List.mem_reverse.mpr ((mem_successors_subgraph hg hnd hmem hns hu).mp hv).2.1

/-! ## Every cycle goes through a header -/

/-- An edge to a node outside a set. -/
def Avoids (g : DirectedGraph ν) (H : List ν) (u w : ν) : Prop := w ∈ g.successors u ∧ w ∉ H

/-- A path between two nodes of a cycle stays on the cycle. -/
theorem transGen_within {α : Type*} {R : α → α → Prop} {v a b : α} (h : Relation.TransGen R a b)
    (hva : Relation.ReflTransGen R v a) (hbv : Relation.ReflTransGen R b v) :
    Relation.TransGen (fun u w => R u w ∧ Relation.ReflTransGen R v u ∧ Relation.ReflTransGen R w v)
      a b := by
  induction h with
  | single hab => exact .single ⟨hab, hva, hbv⟩
  | tail hab hbc ih => exact (ih (hbv.head hbc)).tail ⟨hbc, hva.trans hab.to_reflTransGen, hbv⟩

omit [DecidableEq ν] in
theorem Avoids.mono {H H' : List ν} (h : H ⊆ H') {u w : ν} (huw : Avoids g H' u w) :
    Avoids g H u w :=
  ⟨huw.1, fun hw => huw.2 (h hw)⟩

omit [DecidableEq ν] in
theorem Avoids.reaches {H : List ν} {u w : ν} (h : Relation.ReflTransGen (Avoids g H) u w) :
    g.Reaches u w :=
  Relation.ReflTransGen.mono (fun _ _ h => h.1) _ _ h

/-- What one component contributes: if it has a cycle, then the headers it adds are on all of its
cycles. -/
structure Covers (g : DirectedGraph ν) (H : List ν) (ns : List ν) : Prop where
  cycle : ∀ v ∈ ns, ¬ Relation.TransGen (fun u w => Avoids g H u w ∧ u ∈ ns ∧ w ∈ ns) v v

omit [DecidableEq ν] in
theorem Covers.mono {H H' ns : List ν} (h : Covers g H ns) (hsub : H ⊆ H') : Covers g H' ns :=
  ⟨fun v hv hc => h.cycle v hv
    (Relation.TransGen.mono (fun _ _ huw => ⟨huw.1.mono hsub, huw.2⟩) _ _ hc)⟩

/-- **One component.** -/
theorem addComponent_covers {tree : DirectedGraph ν → Option (LoopForest ν)} (hg : g.Closed)
    (hnd : sccs.flatten.Nodup) (hmem : ∀ x, x ∈ sccs.flatten ↔ x ∈ g.nodes)
    (htree : ∀ g' t, g'.Closed → tree g' = some t →
      ∀ v ∈ g'.nodes, ¬ Relation.TransGen (Avoids g' t.headers) v v)
    {acc acc' : Loops ν × List ν} {ns : List ν} (hns : ns ∈ sccs)
    (h : addComponent tree g sccs isHeader acc ns = some acc') :
    acc.1.headers ⊆ acc'.1.headers ∧ Covers g acc'.1.headers ns := by
  unfold addComponent at h
  split at h
  · rename_i n
    have hedge : ∀ H v, Relation.TransGen (fun u w => Avoids g H u w ∧ u ∈ [n] ∧ w ∈ [n]) v v →
        n ∈ g.successors n ∧ n ∉ H := by
      intro H v hc
      obtain ⟨u, ⟨huw, hu, hw⟩, -⟩ := Relation.TransGen.head'_iff.mp hc
      rw [List.mem_singleton] at hu hw
      subst hu hw
      exact huw
    split at h
    · obtain rfl : _ = acc' := Option.some.inj h
      refine ⟨by simp [Loops.headers], ⟨fun v _ hc => ?_⟩⟩
      exact (hedge _ v hc).2 (by simp [Loops.headers])
    · rename_i hself
      obtain rfl : _ = acc' := Option.some.inj h
      exact ⟨List.Subset.refl _, ⟨fun v _ hc => hself (hedge _ v hc).1⟩⟩
  · simp only [Option.bind_eq_bind, Option.bind_eq_some_iff] at h
    obtain ⟨child, hchild, h⟩ := h
    obtain rfl : _ = acc' := Option.some.inj h
    refine ⟨by simp [Loops.headers], ⟨fun v hv hc => ?_⟩⟩
    refine htree _ child (closed_subgraph hg hnd hmem hns) hchild v (List.mem_reverse.mpr hv) ?_
    refine Relation.TransGen.mono (fun u w huw => ?_) _ _ hc
    obtain ⟨⟨hsucc, hnot⟩, hu, hw⟩ := huw
    simp only [Loops.headers, List.mem_append, not_or, List.mem_reverse, List.mem_filter] at hnot
    refine ⟨(mem_successors_subgraph hg hnd hmem hns hu).mpr ⟨hsucc, hw, ?_⟩, hnot.1.2⟩
    exact Bool.eq_false_iff.mpr fun hheader => hnot.1.1 ⟨hw, hheader⟩

/-- **Every cycle of a graph goes through a header of its forest.** -/
theorem treeFor_covers : ∀ (k : ℕ) (g : DirectedGraph ν) (isHeader : ν → Bool) (t : LoopForest ν),
    g.Closed → treeFor k g isHeader = some t →
      ∀ v ∈ g.nodes, ¬ Relation.TransGen (Avoids g t.headers) v v
  | 0, _, _, _, _, h => by simp [treeFor] at h
  | k + 1, g, isHeader, t, hg, h => by
    intro v hv hc
    obtain ⟨sccs, hsccs, hnd, hmem, hsettled⟩ := stronglyConnectedComponents_spec hg
    simp only [treeFor, hsccs, Option.bind_eq_bind, Option.bind_some,
      Option.bind_eq_some_iff] at h
    obtain ⟨⟨loops, notInLoop⟩, hfold, h⟩ := h
    obtain rfl : _ = t := Option.some.inj h
    obtain ⟨ns, hns, hvns⟩ := List.mem_flatten.mp ((hmem v).mpr hv)
    have hcovers : Covers g loops.headers ns := by
      refine (Fold.foldlM_establish (φ := fun ns acc => Covers g acc.1.headers ns)
        (fun a a' b hb hb' => ?_) hfold).2 ns hns
      obtain ⟨hsub, hcov⟩ := addComponent_covers hg hnd hmem
        (fun g' t hg' ht => treeFor_covers k g' _ t hg' ht) hb hb'
      exact ⟨fun x hx => hx.mono hsub, hcov⟩
    refine hcovers.cycle v hvns (Relation.TransGen.mono (fun u w huw => ?_) _ _
      (transGen_within hc .refl .refl))
    obtain ⟨huw, hvu, hwv⟩ := huw
    have hcomp := hsettled.mem_iff hnd ns hns v hvns
    have huw' : g.Reaches u w := .single huw.1
    exact ⟨huw, (hcomp u).mpr ⟨Avoids.reaches hvu, huw'.trans (Avoids.reaches hwv)⟩,
      (hcomp w).mpr ⟨(Avoids.reaches hvu).trans huw', Avoids.reaches hwv⟩⟩

/-! ## The construction ends -/

/-- Every node is reachable from a seed: a node marked as a header, or one no edge leads to. -/
def Seeded (g : DirectedGraph ν) (isHeader : ν → Bool) : Prop :=
  ∀ v ∈ g.nodes, ∃ s ∈ g.nodes, g.Reaches s v ∧
    (isHeader s = true ∨ ∀ u ∈ g.nodes, s ∉ g.successors u)

omit [DecidableEq ν] in
/-- A path into a set of nodes from outside enters it by an edge. -/
theorem exists_entry {ns : List ν} {s v : ν} (h : g.Reaches s v) (hs : s ∉ ns) (hv : v ∈ ns) :
    ∃ x y, g.Reaches s x ∧ x ∉ ns ∧ y ∈ g.successors x ∧ y ∈ ns := by
  induction h with
  | refl => exact absurd hv hs
  | tail hsu huv ih =>
    rename_i u w
    by_cases hu : u ∈ ns
    · exact ih hu
    · exact ⟨u, w, hsu, hu, huv, hv⟩

omit [DecidableEq ν] in
theorem reaches_nodes (hg : g.Closed) {u v : ν} (h : g.Reaches u v) (hu : u ∈ g.nodes) :
    v ∈ g.nodes := by
  induction h with
  | refl => exact hu
  | tail _ huv ih => exact hg _ ih huv

/-- What is known of the components of a closed graph. -/
structure Components (g : DirectedGraph ν) (sccs : List (List ν)) : Prop where
  nodup : sccs.flatten.Nodup
  mem : ∀ x, x ∈ sccs.flatten ↔ x ∈ g.nodes
  settled : Settled g sccs

/-- A component of more than one node has a header. -/
theorem exists_header (hg : g.Closed) (hc : Components g sccs) (hseed : Seeded g isHeader)
    {ns : List ν} (hns : ns ∈ sccs) {u v : ν} (hu : u ∈ ns) (hv : v ∈ ns) (huv : u ≠ v) :
    ∃ h ∈ ns, markHeaders g sccs isHeader h = true := by
  have hnode : ∀ x ∈ ns, x ∈ g.nodes := fun x hx =>
    (hc.mem x).mp (List.mem_flatten.mpr ⟨ns, hns, hx⟩)
  obtain ⟨s, hs, hsu, hseed⟩ := hseed u (hnode u hu)
  by_cases hsns : s ∈ ns
  · obtain hheader | hnone := hseed
    · exact ⟨s, hsns, by simp [markHeaders, hheader]⟩
    · -- some other node of the component reaches the seed
      obtain ⟨w, hw, hws⟩ : ∃ w ∈ ns, w ≠ s := by
        by_cases hus : u = s
        · exact ⟨v, hv, fun h => huv (hus.trans h.symm)⟩
        · exact ⟨u, hu, hus⟩
      have hreach := ((hc.settled.mem_iff hc.nodup ns hns w hw s).mp hsns).1
      obtain heq | ⟨x, hx, hxs⟩ := Relation.ReflTransGen.cases_tail hreach
      · exact absurd heq.symm hws
      · exact absurd hxs (hnone x (reaches_nodes hg hx (hnode w hw)))
  · obtain ⟨x, y, hsx, hx, hxy, hy⟩ := exists_entry hsu hsns hu
    refine ⟨y, hy, ?_⟩
    have hxnode : x ∈ g.nodes := reaches_nodes hg hsx hs
    have hclass : classOf sccs x ≠ classOf sccs y := fun heq =>
      hx ((classOf_eq_iff hc.nodup ns hns y hy x ((hc.mem x).mpr hxnode)).mp heq.symm)
    simp only [markHeaders, Bool.or_eq_true, List.any_eq_true, decide_eq_true_eq]
    exact Or.inr ⟨x, hxnode, hxy, hclass⟩

/-- The subgraph of a component is seeded by its headers, which no edge leads to any more. -/
theorem seeded_subgraph (hg : g.Closed) (hc : Components g sccs) {isHeader : ν → Bool}
    {ns : List ν} (hns : ns ∈ sccs) {h : ν} (hh : h ∈ ns) (hheader : isHeader h = true) :
    Seeded (subgraph g sccs isHeader ns) fun _ => false := by
  have hedge : ∀ {u v : ν}, u ∈ ns → (v ∈ (subgraph g sccs isHeader ns).successors u ↔
      v ∈ g.successors u ∧ v ∈ ns ∧ isHeader v = false) := fun hu =>
    mem_successors_subgraph hg hc.nodup hc.mem hns hu
  intro v hv
  have hv : v ∈ ns := List.mem_reverse.mp hv
  obtain ⟨hhv, -⟩ := (hc.settled.mem_iff hc.nodup ns hns h hh v).mp hv
  have hpath : ∀ w, g.Reaches h w → g.Reaches w v → ∃ s ∈ ns, isHeader s = true ∧
      (subgraph g sccs isHeader ns).Reaches s w := by
    intro w hhw
    induction hhw with
    | refl => exact fun _ => ⟨h, hh, hheader, .refl⟩
    | tail hhu huw ih =>
      rename_i u w
      intro hwv
      have huv : g.Reaches u v := hwv.head huw
      obtain ⟨s, hs, hsheader, hsu⟩ := ih huv
      have hin : ∀ {x}, g.Reaches h x → g.Reaches x v → x ∈ ns := fun hhx hxv =>
        (hc.settled.mem_iff hc.nodup ns hns v hv _).mpr
          ⟨((hc.settled.mem_iff hc.nodup ns hns v hv h).mp hh).1.trans hhx, hxv⟩
      by_cases hw : isHeader w = true
      · exact ⟨w, hin (hhu.tail huw) hwv, hw, .refl⟩
      · exact ⟨s, hs, hsheader, hsu.tail ((hedge (hin hhu huv)).mpr
          ⟨huw, hin (hhu.tail huw) hwv, Bool.eq_false_iff.mpr hw⟩)⟩
  obtain ⟨s, hs, hsheader, hsv⟩ := hpath v hhv .refl
  refine ⟨s, List.mem_reverse.mpr hs, hsv, Or.inr fun u hu hsu => ?_⟩
  have := ((hedge (List.mem_reverse.mp hu)).mp hsu).2.2
  simp [hsheader] at this

/-- A header is a component of its own in the subgraph, so the other components are smaller. -/
theorem length_lt_of_subgraph (hg : g.Closed) (hc : Components g sccs) {isHeader : ν → Bool}
    {ns : List ν} (hns : ns ∈ sccs) {h : ν} (hh : h ∈ ns) (hheader : isHeader h = true)
    {sccs' : List (List ν)} (hc' : Components (subgraph g sccs isHeader ns) sccs') {ns' : List ν}
    (hns' : ns' ∈ sccs') (htwo : 2 ≤ ns'.length) : ns'.length < ns.length := by
  have hsub : ns' ⊆ ns := fun x hx =>
    List.mem_reverse.mp ((hc'.mem x).mp (List.mem_flatten.mpr ⟨ns', hns', hx⟩))
  have hnd' : ns'.Nodup := (List.nodup_flatten.mp hc'.nodup).1 ns' hns'
  have hnot : h ∉ ns' := by
    intro hmem
    obtain ⟨x, hx, hxh⟩ : ∃ x ∈ ns', x ≠ h := by
      by_contra hall
      push Not at hall
      have hle : ns'.length ≤ [h].length :=
        (List.Nodup.subperm hnd' fun x hx => by simpa using hall x hx).length_le
      simp at hle
      omega
    have hreach := ((hc'.settled.mem_iff hc'.nodup ns' hns' x hx h).mp hmem).1
    obtain heq | ⟨y, hy, hyh⟩ := Relation.ReflTransGen.cases_tail hreach
    · exact hxh heq.symm
    · have hyns : y ∈ ns := List.mem_reverse.mp (reaches_nodes
        (closed_subgraph hg hc.nodup hc.mem hns) hy (List.mem_reverse.mpr (hsub hx)))
      have := ((mem_successors_subgraph hg hc.nodup hc.mem hns hyns).mp hyh).2.2
      simp [hheader] at this
  have hcons : (h :: ns').Nodup := List.nodup_cons.mpr ⟨hnot, hnd'⟩
  exact (List.Nodup.subperm hcons (List.cons_subset.mpr ⟨hh, hsub⟩)).length_le

theorem addComponent_total {tree : DirectedGraph ν → Option (LoopForest ν)} {ns : List ν}
    (hne : ns ≠ []) (htree : 2 ≤ ns.length → ∃ t, tree (subgraph g sccs isHeader ns) = some t)
    (acc : Loops ν × List ν) : ∃ acc', addComponent tree g sccs isHeader acc ns = some acc' := by
  match ns, hne, htree with
  | [n], _, _ =>
    by_cases hself : n ∈ g.successors n
    · exact ⟨_, if_pos hself⟩
    · exact ⟨_, if_neg hself⟩
  | n :: m :: ns, _, htree =>
    obtain ⟨t, ht⟩ := htree (by simp)
    exact ⟨_, by simp only [addComponent, ht, Option.bind_eq_bind, Option.bind_some]; rfl⟩

/-- **The construction ends** when the recursion may go deeper than the longest component. -/
theorem treeFor_total : ∀ (k : ℕ) (g : DirectedGraph ν) (isHeader : ν → Bool), g.Closed →
    Seeded g isHeader → 0 < k →
      (∀ sccs, Components g sccs → ∀ ns ∈ sccs, 2 ≤ ns.length → ns.length < k) →
        ∃ t, treeFor k g isHeader = some t
  | 0, _, _, _, _, hk, _ => absurd hk (Nat.lt_irrefl _)
  | k + 1, g, isHeader, hg, hseed, _, hlen => by
    obtain ⟨sccs, hsccs, hnd, hmem, hsettled⟩ := stronglyConnectedComponents_spec hg
    have hc : Components g sccs := ⟨hnd, hmem, hsettled⟩
    have hchild : ∀ ns ∈ sccs, 2 ≤ ns.length → ∃ t,
        treeFor k (subgraph g sccs (markHeaders g sccs isHeader) ns) (fun _ => false) = some t := by
      intro ns hns htwo
      obtain ⟨u, v, hu, hv, huv⟩ : ∃ u v, u ∈ ns ∧ v ∈ ns ∧ u ≠ v := by
        match ns, htwo, (List.nodup_flatten.mp hnd).1 ns hns with
        | u :: v :: ns, _, hns => exact ⟨u, v, by simp, by simp, by rintro rfl; simp at hns⟩
      obtain ⟨h, hh, hheader⟩ := exists_header hg hc hseed hns hu hv huv
      have hle := hlen sccs hc ns hns htwo
      refine treeFor_total k _ _ (closed_subgraph hg hnd hmem hns)
        (seeded_subgraph hg hc hns hh hheader) (by omega) fun sccs' hc' ns' hns' htwo' => ?_
      have := length_lt_of_subgraph hg hc hns hh hheader hc' hns' htwo'
      omega
    obtain ⟨r, hr⟩ := Fold.foldlM_total (l := sccs) (a := ((.nil, []) : Loops ν × List ν))
      (g := addComponent (fun g => treeFor k g fun _ => false) g sccs (markHeaders g sccs isHeader))
      fun a ns hns => addComponent_total (hsettled.ne_nil ns hns) (hchild ns hns) a
    exact ⟨.mk r.1 r.2, by rw [treeFor, hsccs]; simp [hr]⟩

/-! ## The two results -/

theorem loopForest_covers {k : ℕ} {root : ν} {t : LoopForest ν} (hg : g.Closed)
    (h : loopForestSteensgaard k g root = some t) {v : ν} (hv : v ∈ g.nodes) :
    ¬ Relation.TransGen (Avoids g t.headers) v v :=
  treeFor_covers k g _ t hg h v hv

/-- The construction ends on a graph that is seeded by the root and the nodes that no edge leads to. -/
theorem loopForest_total_of_seeded {root : ν} (hg : g.Closed) (hseed : Seeded g fun n => n = root) :
    ∃ t, loopForestSteensgaard (g.nodes.length + 1) g root = some t := by
  refine treeFor_total _ g _ hg hseed (Nat.succ_pos _) fun sccs hc ns hns _ => Nat.lt_succ_of_le ?_
  have hsub : ns ⊆ g.nodes := fun x hx => (hc.mem x).mp (List.mem_flatten.mpr ⟨ns, hns, hx⟩)
  exact (List.Nodup.subperm ((List.nodup_flatten.mp hc.nodup).1 ns hns) hsub).length_le

theorem loopForest_total {root : ν} (hg : g.Closed) (hroot : root ∈ g.nodes)
    (hreach : ∀ v ∈ g.nodes, g.Reaches root v) :
    ∃ t, loopForestSteensgaard (g.nodes.length + 1) g root = some t :=
  loopForest_total_of_seeded hg fun v hv => ⟨root, hroot, hreach v hv, Or.inl (by simp)⟩

end DirectedGraph

end MLton
