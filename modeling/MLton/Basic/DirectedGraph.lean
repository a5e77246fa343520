import MLton.Machinery.Dfs

/-!
# Basic/DirectedGraph — directed graphs, depth-first search, strong components

A graph is a list of nodes with a list of successors for each.  `dfsNodes` is the search with a client
at every node and every edge; `stronglyConnectedComponents` is its client for the algorithm of Aho,
Hopcroft and Ullman, section 5.5.
-/

namespace MLton

/-- A directed graph. -/
structure DirectedGraph (ν : Type*) where
  nodes : List ν
  successors : ν → List ν

namespace DirectedGraph

variable {ν σ : Type*} [DecidableEq ν]

/-- Every edge stays among the nodes. -/
def Closed (g : DirectedGraph ν) : Prop := ∀ u ∈ g.nodes, g.successors u ⊆ g.nodes

/-- A path, maybe empty. -/
abbrev Reaches (g : DirectedGraph ν) : ν → ν → Prop :=
  Relation.ReflTransGen (Dfs.Edge g.successors)

/-! ## Depth-first search -/

/-- `DfsParam`, for a client with one type of state: what it does on entering a node, at an edge to a
visited node, at a tree edge once its subtree is done, and on leaving a node. -/
structure DfsParam (ν σ : Type*) where
  startNode : ν → σ → σ
  nonTreeEdge : ν → ν → σ → σ
  treeEdge : ν → ν → σ → σ
  finishNode : ν → σ → σ

/-- One edge of `visit`, with the recursive call as a parameter. -/
def visitEdge (P : DfsParam ν σ) (visit : List ν × σ → ν → List ν × σ) (n : ν) (st : List ν × σ)
    (w : ν) : List ν × σ :=
  if w ∈ st.1 then (st.1, P.nonTreeEdge n w st.2)
  else ((visit st w).1, P.treeEdge n w (visit st w).2)

/-- `visit`, on a node not visited so far.  The number bounds the depth of the recursion. -/
def visit (g : DirectedGraph ν) (P : DfsParam ν σ) : ℕ → List ν × σ → ν → List ν × σ
  | 0, st, _ => st
  | k + 1, st, n =>
    let st := (g.successors n).foldl (visitEdge P (visit g P k) n) (n :: st.1, P.startNode n st.2)
    (st.1, P.finishNode n st.2)

/-- The body of `dfsNodes` at one root. -/
def dfsRoot (g : DirectedGraph ν) (P : DfsParam ν σ) (st : List ν × σ) (n : ν) : List ν × σ :=
  if n ∈ st.1 then st else visit g P (g.nodes.length + 1) st n

/-- `dfsNodes`. -/
def dfsNodes (g : DirectedGraph ν) (ns : List ν) (P : DfsParam ν σ) (s : σ) : List ν × σ :=
  ns.foldl (dfsRoot g P) ([], s)

/-- `dfs`. -/
def dfs (g : DirectedGraph ν) (P : DfsParam ν σ) (s : σ) : σ := (dfsNodes g g.nodes P s).2

/-! ## Strong components -/

/-- The state of `stronglyConnectedComponents`: the accumulator, the three fields of `nodeInfo`, and
whether `popTo` has met its `Error.bug`. -/
structure SccState (ν : Type*) where
  count : ℕ
  stack : List ν
  components : List (List ν)
  dfnumber : ν → ℕ
  isOnStack : ν → Bool
  lowlink : ν → ℕ
  bug : Bool

/-- `popTo`: move nodes from the stack up to and with `n`. -/
def popTo (n : ν) : List ν → List ν → Option (List ν × List ν)
  | [], _ => none
  | n' :: stack, ac => if n = n' then some (stack, n' :: ac) else popTo n stack (n' :: ac)

/-- `#lowlink v := k`, if that is lower. -/
def lower (s : SccState ν) (v : ν) (k : ℕ) : SccState ν :=
  if k < s.lowlink v then { s with lowlink := Function.update s.lowlink v k } else s

/-- `startNode`. -/
def sccStart (n : ν) (s : SccState ν) : SccState ν :=
  { s with
    count := s.count + 1
    stack := n :: s.stack
    dfnumber := Function.update s.dfnumber n s.count
    isOnStack := Function.update s.isOnStack n true
    lowlink := Function.update s.lowlink n s.count }

/-- `nonTreeEdge`. -/
def sccNonTree (v w : ν) (s : SccState ν) : SccState ν :=
  if s.dfnumber w < s.dfnumber v ∧ s.isOnStack w = true then lower s v (s.dfnumber w) else s

/-- `treeEdge`. -/
def sccTree (v w : ν) (s : SccState ν) : SccState ν := lower s v (s.lowlink w)

/-- `finishNode`. -/
def sccFinish (n : ν) (s : SccState ν) : SccState ν :=
  if s.lowlink n = s.dfnumber n then
    match popTo n s.stack [] with
    | none => { s with bug := true }
    | some (stack, component) =>
      { s with
        stack := stack
        isOnStack := fun w => if w ∈ component then false else s.isOnStack w
        components := component :: s.components }
  else s

/-- The client of the search. -/
def sccParam : DfsParam ν (SccState ν) where
  startNode := sccStart
  nonTreeEdge := sccNonTree
  treeEdge := sccTree
  finishNode := sccFinish

/-- The state before the search. -/
def sccInit : SccState ν where
  count := 0
  stack := []
  components := []
  dfnumber := fun _ => 0
  isOnStack := fun _ => false
  lowlink := fun _ => 0
  bug := false

/-- `stronglyConnectedComponents`; it fails on the `Error.bug` of `popTo`. -/
def stronglyConnectedComponents (g : DirectedGraph ν) : Option (List (List ν)) :=
  let s := dfs g sccParam sccInit
  if s.bug then none else some s.components

end DirectedGraph

end MLton
