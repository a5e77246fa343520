import MLton.Basic.LoopForest
import MLton.Rssa.Tree

/-!
# Rssa/InsertChecks — where a function checks the heap limit, and for how much

`limitCheckCoalesce` chooses the blocks that may have a check: those at which the heap may have
changed, the headers of the loops, and the exits of the loops that do not allocate.  A check asks for
`maxPath` bytes, the most that is allocated before another block with a check.

Blocks are told apart by their labels; an array over the blocks is a function of the label.
-/

namespace MLton.Rssa.InsertChecks

/-- The settings of the target that sizes depend on; `align` is 4 or 8. -/
structure Target where
  align : ℕ
  normalMetaDataSize : ℕ
  sequenceMetaDataSize : ℕ

/-- `Bytes.alignWord32` and `Bytes.alignWord64`. -/
def alignUp (n align : ℕ) : ℕ := (n + align - 1) / align * align

/-- `Object.size`. -/
def objectSize (T : Target) (tyconTy : ObjptrTycon → ObjectType) : Object → Option ℕ
  | .normal _ tycon => (tyconTy tycon).componentsSize.map fun size => T.normalMetaDataSize + size
  | .sequence init tycon => (tyconTy tycon).componentsSize.map fun size =>
    alignUp (T.sequenceMetaDataSize + size * init.length) T.align

/-- `BytesAllocated.t`. -/
inductive BytesAllocated where
  | dynamic (oper : Operand)
  | static (bytes : ℕ)

/-- `isBig`. -/
def BytesAllocated.isBig : BytesAllocated → Bool
  | dynamic _ => true
  | static bytes => 512 < bytes

/-- `Statement.bytesAllocated`: only heap allocations count. -/
def statementBytesAllocated (T : Target) (tyconTy : ObjptrTycon → ObjectType) :
    Statement → Option ℕ
  | .object _ _ .stack => some 0
  | .object _ obj _ => objectSize T tyconTy obj
  | _ => some 0

/-- `Transfer.bytesAllocated`.  It fails on a constant that is no word, and without the argument. -/
def transferBytesAllocated : Transfer → Option BytesAllocated
  | .ccall args func _ =>
    match func.bytesNeeded with
    | none => some (.static 0)
    | some i =>
      match args[i]? with
      | none => none
      | some (.const (.word w)) => some (.static w.value)
      | some (.const _) => none
      | some arg => some (.dynamic arg)
  | _ => some (.static 0)

/-- `Block.objectBytesAllocated`. -/
def objectBytesAllocated (T : Target) (tyconTy : ObjptrTycon → ObjectType) (b : Block) :
    Option ℕ := do
  let sizes ← b.statements.mapM (statementBytesAllocated T tyconTy)
  let transfer ← transferBytesAllocated b.transfer
  return sizes.sum + match transfer with
    | .dynamic _ => 0
    | .static bytes => bytes

/-- The transfer allocates a lot. -/
def isBigAlloc (b : Block) : Bool := (transferBytesAllocated b.transfer).any BytesAllocated.isBig

/-! ## The graph -/

/-- A block at which the heap may have changed: the set `E`, without the start. -/
def isEntry (b : Block) : Bool :=
  let byKind :=
    match b.kind with
    | .cont _ => true
    | .creturn func => func.mayGC && !func.ensuresBytesFree.isSome
    | .handler => true
    | .jump =>
      match b.transfer with
      | .ccall args func _ =>
        match func.bytesNeeded with
        | none => true
        | some i =>
          match args[i]? with
          | some (.const _) => false
          | _ => true
      | _ => false
  byKind || isBigAlloc b

/-- `mayHaveCheck`, before the loops are looked at. -/
def entries (f : Function) (l : Label) : Bool :=
  decide (l = f.start) || (f.block? l).any isEntry

/-- A node of the graph: a block, or the artificial root. -/
abbrev Node := Option Label

/-- The graph.  Unless `fullCFG`, an edge to a block that may have a check starts at the root. -/
def graph (fullCFG : Bool) (f : Function) : DirectedGraph Node where
  nodes := none :: (f.blocks.map fun b => some b.label).reverse
  successors
    | none => (f.start :: if fullCFG then [] else f.blocks.flatMap fun b =>
        b.transfer.labels.filter (entries f)).reverse.map some
    | some l => ((f.succs l).filter fun l' => fullCFG || !entries f l').reverse.map some

/-! ## Loop headers and loop exits -/

/-- What `setClass` updates. -/
structure Classes where
  counter : ℕ
  classes : Label → Option ℕ
  mayHaveCheck : Label → Bool

/-- `Array.update (classes, nodeIndex n, class)`, except for the root. -/
def noteClass (c : ℕ) (s : Classes) : Node → Classes
  | none => s
  | some l => { s with classes := Function.update s.classes l (some c) }

/-- `Array.update (mayHaveCheck, nodeIndex n, true)`; the root is no header. -/
def noteHeader (s : Classes) : Node → Classes
  | none => s
  | some l => { s with mayHaveCheck := Function.update s.mayHaveCheck l true }

mutual

/-- `setClass`. -/
def setClass : LoopForest Node → Classes → Classes
  | .mk loops notInLoop, s =>
    setClasses loops (notInLoop.foldl (noteClass s.counter) { s with counter := s.counter + 1 })

/-- `setClass` of the children of the loops, with their headers marked. -/
def setClasses : Loops Node → Classes → Classes
  | .nil, s => s
  | .cons headers child rest, s =>
    setClasses rest (setClass child (headers.foldl noteHeader s))

end

/-- `classDoesAllocate`. -/
def classDoesAllocate (alloc : Label → ℕ) (f : Function) (s : Classes) (c : Option ℕ) : Bool :=
  f.blocks.any fun b => decide (0 < alloc b.label) && decide (s.classes b.label = c)

/-- The block is entered from a class that does not allocate. -/
def isLoopExit (alloc : Label → ℕ) (g : DirectedGraph Node) (f : Function) (s : Classes)
    (l : Label) : Bool :=
  f.blocks.any fun b =>
    !classDoesAllocate alloc f s (s.classes b.label) &&
      decide (some l ∈ g.successors (some b.label)) &&
      decide (s.classes b.label ≠ s.classes l)

/-! ## `maxPath` -/

/-- The table `a` of `maxPath`. -/
abbrev Memo := Label → Option ℕ

/-- One successor in the fold of `maxPath`, with the recursive call as a parameter. -/
def maxPathStep (mayHaveCheck : Label → Bool) (maxPath : Memo → Label → Option (ℕ × Memo))
    (acc : ℕ × Memo) (l : Label) : Option (ℕ × Memo) :=
  if mayHaveCheck l then some acc
  else (maxPath acc.2 l).map fun r => (max acc.1 r.1, r.2)

/-- `maxPath`: the most allocated from a block on before a block that may have a check.  The number
bounds the depth of the recursion. -/
def maxPath (succs : Label → List Label) (mayHaveCheck : Label → Bool) (alloc : Label → ℕ) :
    ℕ → Memo → Label → Option (ℕ × Memo)
  | 0, _, _ => none
  | k + 1, a, l =>
    match a l with
    | some x => some (x, a)
    | none =>
      ((succs l).foldlM (maxPathStep mayHaveCheck (maxPath succs mayHaveCheck alloc k)) (0, a)).map
        fun r => (alloc l + r.1, Function.update r.2 l (some (alloc l + r.1)))

/-- What `limitCheckCoalesce` computes: the blocks that may have a check, and `maxPath`, as it is
with the entries found so far. -/
structure LimitChecks where
  mayHaveCheck : Label → Bool
  maxPath : Memo → Label → Option (ℕ × Memo)

/-- `blockLimitCheckAmount`. -/
def LimitChecks.blockLimitCheckAmount (r : LimitChecks) (a : Memo) (l : Label) :
    Option (ℕ × Memo) :=
  if r.mayHaveCheck l then r.maxPath a l else some (0, a)

/-- `ensureFree`. -/
def LimitChecks.ensureFree (r : LimitChecks) : Memo → Label → Option (ℕ × Memo) := r.maxPath

/-- What a block allocates. -/
def allocOf (T : Target) (tyconTy : ObjptrTycon → ObjectType) (f : Function) (l : Label) : ℕ :=
  ((f.block? l).bind (objectBytesAllocated T tyconTy)).getD 0

/-- The successors of a block in the graph. -/
def graphSuccs (g : DirectedGraph Node) (l : Label) : List Label :=
  (g.successors (some l)).filterMap id

/-- `limitCheckCoalesce` with `LoopHeaders {fullCFG, loopExits}`.  It fails on a label without a
block or an allocation without a size, and where `loopForestSteensgaard` does not end. -/
def limitCheckCoalesce (T : Target) (tyconTy : ObjptrTycon → ObjectType) (fullCFG loopExits : Bool)
    (f : Function) : Option LimitChecks := do
  if f.labels.any fun l => (f.block? l).isNone then none
  if f.blocks.any fun b => (objectBytesAllocated T tyconTy b).isNone then none
  let g := graph fullCFG f
  let alloc := allocOf T tyconTy f
  let forest ← g.loopForestSteensgaard (g.nodes.length + 1) none
  let s := setClass forest { counter := 0, classes := fun _ => none, mayHaveCheck := entries f }
  let mayHaveCheck := fun l => s.mayHaveCheck l || (loopExits && isLoopExit alloc g f s l)
  return { mayHaveCheck := mayHaveCheck
           maxPath := maxPath (graphSuccs g) mayHaveCheck alloc (f.blocks.length + 1) }

end MLton.Rssa.InsertChecks
