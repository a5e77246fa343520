import MLton.Basic.EquivalenceGraph
import MLton.Rssa.Rflow

/-!
# Rssa/Chunkify — partitions of the blocks into chunks

Four ways to divide the functions and labels of a program among chunks: all in one, a chunk for each function,
`coalesce`, which joins blocks that jump to one another and then coarsens along calls and returns up to a limit
on the size of a chunk, and `simple`, which joins callers with callees in strongly connected components of the
call graph, and a function with its only class of call or return sites.
-/

namespace MLton.Rssa.Chunkify

open Batteries (UnionFind)

/-- A chunk: the functions that are entered in it, and its blocks. -/
structure Chunk where
  funcs : List Func
  labels : List Label
deriving DecidableEq, Repr

/-- The options of `simple`. -/
structure SimpleOptions where
  mainFns : Bool
  sccC : Bool
  sccR : Bool
  singC : Bool
  singR : Bool

/-- `Control.Chunkify.t`. -/
inductive Strategy where
  | coalesce (limit : ℤ)
  | func
  | one
  | simple (opts : SimpleOptions)

/-- `one`: all code in the same chunk. -/
def one (p : Program) : List Chunk :=
  [⟨p.all.map Function.name, (p.all.map fun f => f.blocks.map Block.label).flatten⟩]

/-- `func`: each function in its own chunk. -/
def func (p : Program) : List Chunk :=
  p.all.map fun f => ⟨[f.name], f.blocks.map Block.label⟩

/-- `blockSize`. -/
def blockSize (b : Block) : ℕ :=
  b.statements.length +
    match b.transfer with
    | .switch s => 1 + s.cases.length
    | _ => 1

/-- The labels a block jumps to within its function: what `same` is called with. -/
def jumps (b : Block) : List Label :=
  match b.transfer with
  | .ccall _ _ ret => ret.toList
  | .goto _ dst => [dst]
  | .switch s => s.labels
  | _ => []

/-- Setting a property that can be set once. -/
def setOnce {κ α : Type*} [DecidableEq κ] (get : κ → Option α) (k : κ) (v : α) : Option (κ → Option α) :=
  match get k with
  | none => some (Function.update get k (some v))
  | some _ => none

/-! ## From classes to chunks -/

/-- `classChunk`, and a push to one of its fields: the first push to a class makes a chunk. -/
def push (chunks : List (ℕ × Chunk)) (c : ℕ) (add : Chunk → Chunk) : List (ℕ × Chunk) :=
  if c ∈ chunks.map Prod.fst then chunks.map fun ch => if ch.1 = c then (c, add ch.2) else ch
  else (c, add ⟨[], []⟩) :: chunks

/-- `add` to the functions. -/
def addFunc (root : ℕ → ℕ) (funcClass : Func → Option ℕ) (chunks : List (ℕ × Chunk)) (f : Func) :
    Option (List (ℕ × Chunk)) := do
  let c ← funcClass f
  return push chunks (root c) fun ch => { ch with funcs := f :: ch.funcs }

/-- `add` to the labels. -/
def addLabel (root : ℕ → ℕ) (labelClass : Label → Option ℕ) (chunks : List (ℕ × Chunk)) (l : Label) :
    Option (List (ℕ × Chunk)) := do
  let c ← labelClass l
  return push chunks (root c) fun ch => { ch with labels := l :: ch.labels }

/-- The chunks of the classes. -/
def collect (p : Program) (root : ℕ → ℕ) (funcClass : Func → Option ℕ) (labelClass : Label → Option ℕ) :
    Option (List Chunk) := do
  let chunks ← p.all.foldlM (fun chunks f => do
    let chunks ← addFunc root funcClass chunks f.name
    (f.blocks.map Block.label).foldlM (addLabel root labelClass) chunks) []
  return chunks.map Prod.snd

/-! ## `coalesce` -/

/-- The state of `coalesce`: the graph and the classes of functions and labels. -/
structure CoalesceState where
  graph : EquivalenceGraph
  funcClass : Func → Option ℕ
  labelClass : Label → Option ℕ

/-- `setLabelClass (label, Graph.newClass (graph, {size = blockSize b}))`. -/
def newLabelClass (s : CoalesceState) (b : Block) : Option CoalesceState := do
  let labelClass ← setOnce s.labelClass b.label (s.graph.newClass (blockSize b)).1
  return { s with graph := (s.graph.newClass (blockSize b)).2, labelClass := labelClass }

/-- `same`. -/
def same (c : ℕ) (s : CoalesceState) (j : Label) : Option CoalesceState := do
  let c' ← s.labelClass j
  return { s with graph := s.graph.union c c' }

/-- The block's class is joined with those it jumps to. -/
def joinJumps (s : CoalesceState) (b : Block) : Option CoalesceState := do
  let c ← s.labelClass b.label
  (jumps b).foldlM (same c) s

/-- The initial partition, at one function. -/
def partitionFunction (s : CoalesceState) (f : Function) : Option CoalesceState := do
  let s ← f.blocks.foldlM newLabelClass s
  let c ← s.labelClass f.start
  let funcClass ← setOnce s.funcClass f.name c
  f.blocks.foldlM joinJumps { s with funcClass := funcClass }

/-- The edges of one block, in a function that returns to the classes `returnsTo`. -/
def addBlockEdges (returnsTo : List ℕ) (s : CoalesceState) (b : Block) : Option CoalesceState :=
  match b.transfer with
  | .call _ func _ => do
    let c ← s.labelClass b.label
    let c' ← s.funcClass func
    return { s with graph := s.graph.addEdge c c' }
  | .ret _ => do
    let c ← s.labelClass b.label
    return { s with graph := returnsTo.foldl (fun g c' => g.addEdge c c') s.graph }
  | _ => some s

/-- The edges of one function. -/
def addEdges (rflow : Rflow.Labels) (s : CoalesceState) (f : Function) : Option CoalesceState := do
  let returnsTo ← (rflow.elements (.returnsTo f.name)).mapM s.labelClass
  f.blocks.foldlM (addBlockEdges returnsTo.reverse) s

/-- `Graph.coarsen`, unless the limit is zero. -/
def coarsenTo (limit : ℤ) (s : CoalesceState) : CoalesceState :=
  if limit = 0 then s else { s with graph := s.graph.coarsen limit }

/-- `coalesce`. -/
def coalesce (p : Program) (limit : ℤ) : Option (List Chunk) := do
  let s ← p.all.foldlM partitionFunction ⟨.new, fun _ => none, fun _ => none⟩
  let rflow ← p.rflow
  let s ← p.all.foldlM (addEdges rflow) s
  let s := coarsenTo limit s
  collect p s.graph.sets.rootD s.funcClass s.labelClass

/-! ## `simple` -/

/-- `labelInfo`. -/
structure LabelInfo where
  cls : ℕ
  func : Func

/-- `funcInfo`; the node of a function is told by its name. -/
structure FuncInfo where
  callSites : List Label
  cls : ℕ
  function : Function

/-- The state of `simple`: the classes, the properties, and the edges of the call graph, latest first. -/
structure SimpleState where
  sets : UnionFind
  labelInfo : Label → Option LabelInfo
  funcInfo : Func → Option FuncInfo
  calls : Func → List Func

namespace SimpleState

/-- `labelClass`. -/
def labelClass (s : SimpleState) (l : Label) : Option ℕ := (s.labelInfo l).map LabelInfo.cls

/-- `funcClass`. -/
def funcClass (s : SimpleState) (f : Func) : Option ℕ := (s.funcInfo f).map FuncInfo.cls

/-- `Class.==`. -/
def union (c : ℕ) (s : SimpleState) (c' : ℕ) : SimpleState := { s with sets := DisjointSet.union s.sets c c' }

/-- `setLabelInfo`, with a new class. -/
def newLabelInfo (name : Func) (s : SimpleState) (b : Block) : Option SimpleState := do
  let labelInfo ← setOnce s.labelInfo b.label ⟨(DisjointSet.singleton s.sets).1, name⟩
  return { s with sets := (DisjointSet.singleton s.sets).2, labelInfo := labelInfo }

/-- The properties of one function and its blocks. -/
def newFuncInfo (s : SimpleState) (f : Function) : Option SimpleState := do
  let s ← f.blocks.foldlM (newLabelInfo f.name) s
  let c ← s.labelClass f.start
  let funcInfo ← setOnce s.funcInfo f.name ⟨[], c, f⟩
  return { s with funcInfo := funcInfo }

/-- `same`. -/
def same (c : ℕ) (s : SimpleState) (j : Label) : Option SimpleState := do
  let c' ← s.labelClass j
  return s.union c c'

/-- The block's class is joined with those it jumps to. -/
def joinJumps (s : SimpleState) (b : Block) : Option SimpleState := do
  let c ← s.labelClass b.label
  (jumps b).foldlM (same c) s

/-- The call sites and the edge of one block of the function `name`. -/
def addCall (name : Func) (s : SimpleState) (b : Block) : Option SimpleState :=
  match b.transfer with
  | .call _ func _ => do
    let info ← s.funcInfo func
    return { s with
      funcInfo := Function.update s.funcInfo func (some { info with callSites := b.label :: info.callSites })
      calls := Function.update s.calls name (func :: s.calls name) }
  | _ => some s

/-- The call graph. -/
def cgraph (p : Program) (s : SimpleState) : DirectedGraph Func where
  nodes := (p.all.map Function.name).reverse
  successors := s.calls

/-- `mkRTo`: the classes of the labels that are in the component. -/
def mkRTo (s : SimpleState) (funcs : List Func) (rTo : List Label) : Option (List ℕ) := do
  let infos ← rTo.mapM s.labelInfo
  return ((infos.filter fun info => info.func ∈ funcs).map LabelInfo.cls).reverse

/-- `eqRTo`. -/
def eqRTo (sccR : Bool) (s : SimpleState) (l : Label) (rTo : List ℕ) : Option SimpleState :=
  if sccR then do
    let c ← s.labelClass l
    return rTo.foldl (union c) s
  else some s

/-- One block of a function of the component `funcs`. -/
def joinBlock (opts : SimpleOptions) (funcs : List Func) (returnsTo raisesTo : List ℕ) (s : SimpleState)
    (b : Block) : Option SimpleState :=
  match b.transfer with
  | .call _ func _ =>
    if opts.sccC && decide (func ∈ funcs) then do
      let c ← s.labelClass b.label
      let c' ← s.funcClass func
      return s.union c c'
    else some s
  | .raise _ => s.eqRTo opts.sccR b.label raisesTo
  | .ret _ => s.eqRTo opts.sccR b.label returnsTo
  | _ => some s

/-- One function of the component `funcs`. -/
def joinFunction (opts : SimpleOptions) (rflow : Rflow.Labels) (funcs : List Func) (s : SimpleState)
    (f : Func) : Option SimpleState := do
  let info ← s.funcInfo f
  let returnsTo ← s.mkRTo funcs (rflow.elements (.returnsTo info.function.name))
  let raisesTo ← s.mkRTo funcs (rflow.elements (.raisesTo info.function.name))
  info.function.blocks.foldlM (joinBlock opts funcs returnsTo raisesTo) s

/-- `oneClass`: the class of all the labels, if they have one and none is in a main function. -/
def oneClass (isMain : Func → Bool) (s : SimpleState) : List Label → Option (Option ℕ)
  | [] => some none
  | l :: ls => do
    let info ← s.labelInfo l
    if isMain info.func then return none
    let same ← ls.allM fun l => do
      let info' ← s.labelInfo l
      return !isMain info'.func && DisjointSet.equals s.sets info.cls info'.cls
    return if same then some info.cls else none

/-- The function `oneClass` returns: join a class with the one found, and note the change. -/
def join (c : ℕ) (st : SimpleState × Bool) (c' : ℕ) : SimpleState × Bool :=
  if DisjointSet.equals st.1.sets c c' then st else (st.1.union c c', true)

/-- `doSingC`. -/
def doSingC (isMain : Func → Bool) (info : FuncInfo) (st : SimpleState × Bool) : Option (SimpleState × Bool) := do
  match ← st.1.oneClass isMain info.callSites with
  | none => return st
  | some c => return join c st info.cls

/-- `doSingR`, at one block. -/
def joinExit (c : ℕ) (st : SimpleState × Bool) (b : Block) : Option (SimpleState × Bool) :=
  match b.transfer with
  | .raise _ | .ret _ => do
    let c' ← st.1.labelClass b.label
    return join c st c'
  | _ => some st

/-- `doSingR`. -/
def doSingR (isMain : Func → Bool) (rTo : List Label) (blocks : List Block) (st : SimpleState × Bool) :
    Option (SimpleState × Bool) := do
  match ← st.1.oneClass isMain rTo with
  | none => return st
  | some c => blocks.foldlM (joinExit c) st

/-- The body of `loop` at one function. -/
def visit (opts : SimpleOptions) (isMain : Func → Bool) (rflow : Rflow.Labels) (st : SimpleState × Bool)
    (f : Function) : Option (SimpleState × Bool) := do
  let info ← st.1.funcInfo f.name
  let st ← if opts.singC then doSingC isMain info st else some st
  if opts.singR then
    doSingR isMain (rflow.elements (.returnsTo f.name) ++ rflow.elements (.raisesTo f.name)) f.blocks st
  else some st

/-- `loop`.  The number bounds the rounds. -/
def loop (opts : SimpleOptions) (isMain : Func → Bool) (rflow : Rflow.Labels) (functions : List Function) :
    ℕ → SimpleState → Option SimpleState
  | 0, _ => none
  | k + 1, s => do
    let (s, changed) ← functions.foldlM (visit opts isMain rflow) (s, false)
    if changed then loop opts isMain rflow functions k s else some s

end SimpleState

/-- `mainFns`: the main function and those it calls. -/
def mainFns (p : Program) (opts : SimpleOptions) : List Func :=
  if opts.mainFns then
    p.main.blocks.foldl (fun fns b =>
      match b.transfer with
      | .call _ func _ => func :: fns
      | _ => fns) [p.main.name]
  else []

open SimpleState in
/-- `simple`.  A round of `loop` that changes something leaves fewer classes. -/
def simple (p : Program) (opts : SimpleOptions) : Option (List Chunk) := do
  let s ← p.all.foldlM newFuncInfo ⟨.empty, fun _ => none, fun _ => none, fun _ => []⟩
  let s ← p.all.foldlM (fun s f => f.blocks.foldlM SimpleState.joinJumps s) s
  let s ← p.all.foldlM (fun s f => f.blocks.foldlM (addCall f.name) s) s
  let rflow ← p.rflow
  let sccs ← (s.cgraph p).stronglyConnectedComponents
  let s ← sccs.foldlM (fun s funcs => funcs.foldlM (joinFunction opts rflow funcs) s) s
  let isMain := fun f => decide (f ∈ mainFns p opts)
  let s ← loop opts isMain rflow p.all (s.sets.size + 1) s
  collect p s.sets.rootD s.funcClass s.labelClass

/-- `chunkify`. -/
def chunkify (p : Program) : Strategy → Option (List Chunk)
  | .coalesce limit => coalesce p limit
  | .one => some (one p)
  | .func => some (func p)
  | .simple opts => simple p opts

end MLton.Rssa.Chunkify
