import MLton.Basic.Dominators

/-!
# Basic/DominatorTree — the tree of immediate dominators

The nodes that can be reached, each below its immediate dominator.  The walk from the root makes every
one of them a node of the tree, and none twice (`dominatorTree_spec`).
-/

namespace MLton

/-- `Tree.t`. -/
inductive Tree (α : Type*) where
  | node (value : α) (children : List (Tree α))

namespace Tree

variable {α : Type*}

/-- The value at the root. -/
def root : Tree α → α
  | node a _ => a

mutual

/-- The values, a node's before its children's. -/
def values : Tree α → List α
  | node a ts => a :: valuesOf ts

def valuesOf : List (Tree α) → List α
  | [] => []
  | t :: ts => values t ++ valuesOf ts

end

/-- The children of every node are these. -/
inductive Linked (children : α → List α) : Tree α → Prop
  | node {a : α} {ts : List (Tree α)} : ts.map root = children a → (∀ t ∈ ts, Linked children t) →
      Linked children (node a ts)

theorem root_mem_values : ∀ t : Tree α, t.root ∈ t.values
  | node _ _ => List.mem_cons_self

theorem mem_valuesOf {a : α} : ∀ {ts : List (Tree α)}, a ∈ valuesOf ts ↔ ∃ t ∈ ts, a ∈ t.values
  | [] => by simp [valuesOf]
  | t :: ts => by rw [valuesOf, List.mem_append, mem_valuesOf, List.exists_mem_cons_iff]

end Tree

namespace DirectedGraph

variable {ν : Type*} [DecidableEq ν]

/-- The nodes whose immediate dominator is this one, in the order they were made. -/
def children (g : DirectedGraph ν) (idom : ν → IdomRes ν) (n : ν) : List ν :=
  (g.nodes.filter fun m => idom m = .idom n).reverse

/-- `treeAt`.  The number bounds the depth of the recursion. -/
def treeAt (children : ν → List ν) : ℕ → ν → Option (Tree ν)
  | 0, _ => none
  | k + 1, n => ((children n).mapM (treeAt children k)).map (.node n)

/-- `dominatorTree`, of the nodes themselves. -/
def dominatorTree (g : DirectedGraph ν) (root : ν) : Option (Tree ν) := do
  let idom ← g.dominators root
  treeAt (g.children idom) (g.nodes.length + 1) root

/-! ## The walk from the root -/

section Walk

open Dominance

omit [DecidableEq ν]

variable {E : ν → ν → Prop} {root : ν} {children : ν → List ν} {nodes : List ν}

/-- The children of a node are nodes that it dominates immediately. -/
structure Children (E : ν → ν → Prop) (root : ν) (nodes : List ν) (children : ν → List ν) : Prop where
  nodup : ∀ n, (children n).Nodup
  immediate : ∀ {n m}, m ∈ children n → Immediate E root n m
  reaches : ∀ {n m}, m ∈ children n → Relation.ReflTransGen E root m
  mem : ∀ {n m}, m ∈ children n → m ∈ nodes

/-- What the walk makes of a node. -/
structure Below (E : ν → ν → Prop) (r : ν) (children : ν → List ν) (n : ν) (t : Tree ν) : Prop where
  root : t.root = n
  nodup : t.values.Nodup
  dominates : ∀ v ∈ t.values, Dominates E r n v
  reaches : ∀ v ∈ t.values, Relation.ReflTransGen E r v
  closed : ∀ v ∈ t.values, ∀ m ∈ children v, m ∈ t.values
  linked : t.Linked children

theorem Children.nodup_valuesOf (h : Children E root nodes children) {n : ν} :
    ∀ {ms : List ν} {ts : List (Tree ν)}, ms.Nodup → (∀ m ∈ ms, m ∈ children n) →
      List.Forall₂ (Below E root children) ms ts → (Tree.valuesOf ts).Nodup
  | _, _, _, _, .nil => List.nodup_nil
  | m :: ms, t :: ts, hnodup, hms, .cons ht hts => by
    obtain ⟨hm, hnodup⟩ := List.nodup_cons.mp hnodup
    obtain ⟨hmem, hms⟩ := List.forall_mem_cons.mp hms
    refine List.nodup_append'.mpr ⟨ht.nodup, h.nodup_valuesOf hnodup hms hts, fun v hv hv' => ?_⟩
    obtain ⟨t', ht', hv'⟩ := Tree.mem_valuesOf.mp hv'
    obtain ⟨m', hm', hbelow⟩ := Fold.exists_of_mem_right hts ht'
    have hne : m ≠ m' := fun heq => hm (heq ▸ hm')
    exact hne ((h.immediate hmem).eq_of_dominates (h.immediate (hms m' hm')) (ht.dominates v hv)
      (hbelow.dominates v hv') (ht.reaches v hv))

/-- **A node with the trees of its children.** -/
theorem Children.below (h : Children E root nodes children) {n : ν} {ts : List (Tree ν)}
    (hn : Relation.ReflTransGen E root n) (hts : List.Forall₂ (Below E root children) (children n) ts) :
    Below E root children n (.node n ts) := by
  have hchild : ∀ {v}, v ∈ Tree.valuesOf ts → ∃ m ∈ children n, ∃ t ∈ ts, Below E root children m t ∧
      v ∈ t.values := by
    intro v hv
    obtain ⟨t, ht, hv⟩ := Tree.mem_valuesOf.mp hv
    obtain ⟨m, hm, hbelow⟩ := Fold.exists_of_mem_right hts ht
    exact ⟨m, hm, t, ht, hbelow, hv⟩
  have hdom : ∀ {m v}, m ∈ children n → Dominates E root m v → Dominates E root n v :=
    fun hm hv => (h.immediate hm).dominates.trans hv
  refine ⟨rfl, List.nodup_cons.mpr ⟨fun hmem => ?_, h.nodup_valuesOf (h.nodup n) (fun _ hm => hm) hts⟩,
    ?_, ?_, ?_, .node ?_ fun t ht => ?_⟩
  · obtain ⟨m, hm, t, -, hbelow, hv⟩ := hchild hmem
    exact (h.immediate hm).ne ((h.immediate hm).dominates.antisymm (hbelow.dominates n hv) (h.reaches hm))
  · refine List.forall_mem_cons.mpr ⟨dominates_refl, fun v hv => ?_⟩
    obtain ⟨m, hm, t, -, hbelow, hv⟩ := hchild hv
    exact hdom hm (hbelow.dominates v hv)
  · refine List.forall_mem_cons.mpr ⟨hn, fun v hv => ?_⟩
    obtain ⟨m, -, t, -, hbelow, hv⟩ := hchild hv
    exact hbelow.reaches v hv
  · refine List.forall_mem_cons.mpr ⟨fun m hm => ?_, fun v hv m hm => ?_⟩
    · obtain ⟨t, ht, hbelow⟩ := Fold.exists_of_mem_left hts hm
      exact List.mem_cons_of_mem _ (Tree.mem_valuesOf.mpr ⟨t, ht, hbelow.root ▸ t.root_mem_values⟩)
    · obtain ⟨_, -, t, ht, hbelow, hv⟩ := hchild hv
      exact List.mem_cons_of_mem _ (Tree.mem_valuesOf.mpr ⟨t, ht, hbelow.closed v hv m hm⟩)
  · exact List.forall₂_eq_eq_eq ▸ (List.forall₂_map_left_iff.mpr (hts.flip.imp fun _ _ hb => hb.root))
  · obtain ⟨m, -, hbelow⟩ := Fold.exists_of_mem_right hts ht
    exact hbelow.linked

/-- **The walk ends**: the nodes above are different from each other and from the node. -/
theorem Children.treeAt_spec (h : Children E root nodes children) : ∀ (k : ℕ) {above : List ν} {n : ν},
    nodes.length ≤ above.length + k → above.Nodup → n ∉ above → n ∈ nodes → above ⊆ nodes →
    (∀ a ∈ above, Dominates E root a n) → Relation.ReflTransGen E root n →
    ∃ t, treeAt children k n = some t ∧ Below E root children n t
  | 0, above, n, hlen, hnodup, hnot, hn, hsub, _, _ => by
    have hle := (List.subperm_of_subset (List.nodup_cons.mpr ⟨hnot, hnodup⟩)
      (List.cons_subset.mpr ⟨hn, hsub⟩)).length_le
    rw [List.length_cons] at hle
    omega
  | k + 1, above, n, hlen, hnodup, hnot, hn, hsub, hdom, hreach => by
    have hchild : ∀ m ∈ children n, ∃ t, treeAt children k m = some t ∧ Below E root children m t := by
      intro m hm
      have himm := h.immediate hm
      have hdom' : ∀ a ∈ n :: above, Dominates E root a m :=
        List.forall_mem_cons.mpr ⟨himm.dominates, fun a ha => (hdom a ha).trans himm.dominates⟩
      refine h.treeAt_spec k ?_ (List.nodup_cons.mpr ⟨hnot, hnodup⟩) (fun hmem => ?_) (h.mem hm)
        (List.cons_subset.mpr ⟨hn, hsub⟩) hdom' (h.reaches hm)
      · rw [List.length_cons]
        omega
      · obtain heq | hmem := List.mem_cons.mp hmem
        · exact himm.ne heq.symm
        · exact himm.ne (himm.dominates.antisymm (hdom m hmem) (h.reaches hm))
    obtain ⟨ts, hts, hbelow⟩ := Fold.exists_mapM hchild
    exact ⟨.node n ts, by rw [treeAt, hts]; rfl, h.below hreach hbelow⟩

end Walk

omit [DecidableEq ν] in
theorem Closed.mem_of_reaches {g : DirectedGraph ν} (hg : g.Closed) {u v : ν} (hu : u ∈ g.nodes)
    (h : g.Reaches u v) : v ∈ g.nodes := by
  induction h with
  | refl => exact hu
  | tail _ hvw ih => exact hg _ ih hvw

/-- **The dominator tree** has the nodes in reach, each once, below their immediate dominators. -/
theorem dominatorTree_spec {g : DirectedGraph ν} {root : ν} (hg : g.Closed) (hnodup : g.nodes.Nodup)
    (hroot : root ∈ g.nodes) :
    ∃ t children, g.dominatorTree root = some t ∧ t.root = root ∧ t.values.Nodup ∧
      (∀ v, v ∈ t.values ↔ g.Reaches root v) ∧ t.Linked children ∧
      ∀ n m, m ∈ children n ↔ g.Reaches root m ∧ Dominance.Immediate (Dfs.Edge g.successors) root n m := by
  obtain ⟨idom, hidom, hidomRoot, hunreach, himm⟩ := dominators_spec hg hroot
  have hmem : ∀ {n m}, m ∈ g.children idom n ↔ m ∈ g.nodes ∧ idom m = .idom n := by
    intro n m
    rw [children, List.mem_reverse, List.mem_filter, decide_eq_true_eq]
  have hchild : ∀ {n m}, m ∈ g.children idom n → g.Reaches root m ∧
      Dominance.Immediate (Dfs.Edge g.successors) root n m := by
    intro n m hm
    have hm := (hmem.mp hm).2
    have hne : m ≠ root := fun heq => by
      rw [heq, hidomRoot] at hm
      exact absurd hm nofun
    by_cases hreach : g.Reaches root m
    · obtain ⟨d, hd, -, hi⟩ := himm m hne hreach
      obtain rfl := IdomRes.idom.inj (hd.symm.trans hm)
      exact ⟨hreach, hi⟩
    · exact absurd ((hunreach m hne hreach).symm.trans hm) nofun
  have hchildren : Children (Dfs.Edge g.successors) root g.nodes (g.children idom) :=
    ⟨fun n => List.nodup_reverse.mpr (hnodup.filter _), fun hm => (hchild hm).2, fun hm => (hchild hm).1,
      fun hm => (hmem.mp hm).1⟩
  have hlen : g.nodes.length ≤ ([] : List ν).length + (g.nodes.length + 1) := by simp
  obtain ⟨t, ht, hbelow⟩ := hchildren.treeAt_spec (g.nodes.length + 1) hlen List.nodup_nil
    List.not_mem_nil hroot (List.nil_subset _) (by simp) .refl
  refine ⟨t, g.children idom, ?_, hbelow.root, hbelow.nodup, fun v => ⟨hbelow.reaches v, fun hv => ?_⟩,
    hbelow.linked, fun n m => ⟨hchild, fun ⟨hm, hi⟩ => ?_⟩⟩
  · rw [dominatorTree, hidom]
    exact ht
  · by_contra hnot
    -- the first node on a path that is not in the tree
    obtain hav | ⟨w, ⟨hw, hreach⟩, hfirst⟩ := Dominance.avoids_or_exists_first
      (fun w => w ∉ t.values ∧ g.Reaches root w) hv
    · exact hav.notMem ⟨hnot, hv⟩
    · have hne : w ≠ root := fun heq => hw (heq ▸ hbelow.root ▸ t.root_mem_values)
      obtain ⟨u, hu, huw⟩ := hfirst.resolve_left hne
      obtain ⟨d, hd, hdreach, hi⟩ := himm w hne hreach
      have hdt : d ∉ t.values := by
        intro hmemd
        exact hw (hbelow.closed d hmemd w (hmem.mpr ⟨hg.mem_of_reaches hroot hreach, hd⟩))
      have hud : Dominance.Avoids (Dfs.Edge g.successors) root (· = d) u :=
        hu.of_forall fun _ heq hav => hav.notMem (heq ▸ ⟨hdt, hdreach⟩)
      exact hi.dominates (hud.step huw hi.ne.symm)
  · have hne : m ≠ root := by
      rintro rfl
      exact hi.dominates (.root hi.ne.symm)
    obtain ⟨d, hd, -, hi'⟩ := himm m hne hm
    exact hmem.mpr ⟨hg.mem_of_reaches hroot hm, hi.unique hi' hm ▸ hd⟩

/-- **Immediate dominators and their tree.**  The iteration ends without an unknown entry as an index; the root
has no dominator, a node out of reach is unreachable, and every other node has the one strict dominator
that its other strict dominators dominate.  The tree has the nodes in reach, each once. -/
theorem dominators_correct {g : DirectedGraph ν} {root : ν} (hg : g.Closed) (hnodup : g.nodes.Nodup)
    (hroot : root ∈ g.nodes) :
    ∃ idom t, g.dominators root = some idom ∧ g.dominatorTree root = some t ∧ idom root = .root ∧
      (∀ n, idom n = .unreachable ↔ ¬ g.Reaches root n) ∧
      (∀ n ≠ root, g.Reaches root n → ∃ d, idom n = .idom d ∧
        ∀ d', Dominance.Immediate (Dfs.Edge g.successors) root d' n ↔ d' = d) ∧
      t.root = root ∧ t.values.Nodup ∧ ∀ v, v ∈ t.values ↔ g.Reaches root v := by
  obtain ⟨idom, hidom, hidomRoot, hunreach, himm⟩ := dominators_spec hg hroot
  obtain ⟨t, -, ht, htroot, htnodup, hmem, -⟩ := dominatorTree_spec hg hnodup hroot
  refine ⟨idom, t, hidom, ht, hidomRoot, fun n => ?_, fun n hne hn => ?_, htroot, htnodup, hmem⟩
  · by_cases hroot : n = root
    · subst hroot
      rw [hidomRoot]
      exact iff_of_false nofun fun h => h .refl
    · refine ⟨fun hunr hn => ?_, hunreach n hroot⟩
      obtain ⟨d, hd, -⟩ := himm n hroot hn
      exact absurd (hd.symm.trans hunr) nofun
  · obtain ⟨d, hd, -, hi⟩ := himm n hne hn
    exact ⟨d, hd, fun d' => ⟨fun hi' => hi'.unique hi hn, fun heq => heq ▸ hi⟩⟩

/-- Two edges to one node, an irreducible loop of two nodes, and a node out of reach with a loop. -/
def irreducible : DirectedGraph ℕ where
  nodes := [0, 1, 2, 3]
  successors n := if n = 0 then [1, 1, 2] else if n = 1 then [2] else if n = 2 then [1] else if n = 3 then [3, 1] else []

theorem dominators_correct_irreducible :
    ∃ idom t, irreducible.dominators 0 = some idom ∧ irreducible.dominatorTree 0 = some t ∧ idom 0 = .root ∧
      (∀ n, idom n = .unreachable ↔ ¬ irreducible.Reaches 0 n) ∧
      (∀ n ≠ 0, irreducible.Reaches 0 n → ∃ d, idom n = .idom d ∧
        ∀ d', Dominance.Immediate (Dfs.Edge irreducible.successors) 0 d' n ↔ d' = d) ∧
      t.root = 0 ∧ t.values.Nodup ∧ ∀ v, v ∈ t.values ↔ irreducible.Reaches 0 v :=
  dominators_correct (by unfold Closed; decide) (by decide) (by decide)

end DirectedGraph

end MLton
