import MLton.Machinery.Dfs
import MLton.Machinery.Sweep
import MLton.Ssa.Tree

/-!
# Ssa/Regions — a region for every function that allocates on the stack

A function with a stack allocation, or with a call of a function that returns one, opens a region at
its start block and closes it where control leaves.  Which blocks run with the region open is found by
sweeping over the blocks until nothing changes.

Blocks are told apart by their labels, which are distinct; an array over the blocks is a function of
the label.
-/

namespace MLton.Ssa.Regions

/-- `regionPushStmt`. -/
def regionPushStmt : Statement :=
  { var := none, ty := .unit, exp := .primApp .regionPush [] none [] }

/-- `regionPopStmt`. -/
def regionPopStmt : Statement :=
  { var := none, ty := .unit, exp := .primApp .regionPop [] none [] }

/-- `isStackMode`. -/
def isStackMode (m : Mode) : Bool := m == .stack

/-- `hasStackAlloc` of a statement. -/
def hasStackAlloc (s : Statement) : Bool :=
  match s.exp with
  | .conApp _ _ mode => isStackMode mode
  | .tuple _ mode => isStackMode mode
  | .primApp _ _ mode _ => mode.any isStackMode
  | _ => false

/-- `statementIsPrim`. -/
def statementIsPrim (prim : Prim) (s : Statement) : Bool :=
  match s.exp with
  | .primApp prim' _ _ _ => prim'.equals prim
  | _ => false

/-- `blockHasPrim`. -/
def blockHasPrim (prim : Prim) (b : Block) : Bool := b.statements.any (statementIsPrim prim)

/-! ## Functions that return a stack object -/

/-- The mode a statement gives to its variable, `getVarMode`/`setVarMode`. -/
def noteMode (varMode : Var → Option Mode) (s : Statement) : Var → Option Mode :=
  match s.var, s.exp with
  | some x, .primApp _ _ mode _ => Function.update varMode x mode
  | some x, .conApp _ _ mode => Function.update varMode x (some mode)
  | some x, .tuple _ mode => Function.update varMode x (some mode)
  | _, _ => varMode

/-- What `functionAllocatesInCaller` does on entering a block: it notes the modes. -/
def noteModes (f : Function) (st : (Var → Option Mode) × Bool) (l : Label) :
    (Var → Option Mode) × Bool :=
  match f.block? l with
  | some b => (b.statements.foldl noteMode st.1, st.2)
  | none => st

/-- What it does on leaving a block: it looks at the variables returned. -/
def noteReturn (f : Function) (st : (Var → Option Mode) × Bool) (l : Label) :
    (Var → Option Mode) × Bool :=
  match (f.block? l).map Block.transfer with
  | some (.ret vars) => (st.1, st.2 || vars.any fun x => (st.1 x).any isStackMode)
  | _ => st

/-- `functionAllocatesInCaller`: some `Return` returns a variable bound to a stack allocation. -/
def functionAllocatesInCaller (f : Function) : Bool :=
  (Dfs.search f.succs (noteModes f) (noteReturn f) (f.labels.length + 1) (fun _ => none, false)
    f.start).2.2

/-- `doesFunctionAllocateInCaller`: false for a function the program does not have. -/
def doesFunctionAllocateInCaller (p : Program) (g : Func) : Bool :=
  (p.function? g).any functionAllocatesInCaller

/-! ## One function -/

/-- What `allocSearch` looks for in a block. -/
def blockAllocates (inCaller : Func → Bool) (b : Block) : Bool :=
  b.statements.any hasStackAlloc ||
    match b.transfer with
    | .call _ func _ => inCaller func
    | _ => false

/-- `foundStackAlloc`.  The search stops at the first find; going on would find nothing else. -/
def foundStackAlloc (inCaller : Func → Bool) (f : Function) : Bool :=
  (Dfs.search f.succs (fun found l => found || (f.block? l).any (blockAllocates inCaller))
    (fun found _ => found) (f.labels.length + 1) false f.start).2

/-- `blockHasPop`. -/
def blockHasPop (f : Function) (l : Label) : Bool := (f.block? l).any (blockHasPrim .regionPop)

/-- `blockHasPush`. -/
def blockHasPush (f : Function) (l : Label) : Bool := (f.block? l).any (blockHasPrim .regionPush)

/-- `preds`. -/
def preds (f : Function) (l : Label) : List Label :=
  (f.blocks.map Block.label).filter fun i => l ∈ f.succs i

/-- `entryHasRegion` and `exitHasRegion`. -/
structure HasRegion where
  entry : Label → Bool
  exit : Label → Bool

/-- `newEntry`. -/
def newEntry (f : Function) (exit : Label → Bool) (i : Label) : Bool :=
  decide (i = f.start) || (preds f i).any exit

/-- `newExit`. -/
def newExit (f : Function) (exit : Label → Bool) (i : Label) : Bool :=
  newEntry f exit i && !blockHasPop f i

/-- The assignment to `entryHasRegion`; the flag is `changed`. -/
def setEntry (f : Function) (acc : HasRegion × Bool) (b : Block) : HasRegion × Bool :=
  let new := newEntry f acc.1.exit b.label
  if acc.1.entry b.label ≠ new then
    ({ acc.1 with entry := Function.update acc.1.entry b.label new }, true)
  else acc

/-- The assignment to `exitHasRegion`. -/
def setExit (f : Function) (acc : HasRegion × Bool) (b : Block) : HasRegion × Bool :=
  let new := newExit f acc.1.exit b.label
  if acc.1.exit b.label ≠ new then
    ({ acc.1 with exit := Function.update acc.1.exit b.label new }, true)
  else acc

/-- The body of `propagate` at one block. -/
def propagateBlock (f : Function) (acc : HasRegion × Bool) (b : Block) : HasRegion × Bool :=
  setExit f (setEntry f acc b) b

/-- `propagate`, from only the start block's entry. -/
def propagate (f : Function) : HasRegion :=
  Sweep.sweeps (propagateBlock f) f.blocks (2 * f.blocks.length + 1)
    { entry := Function.update (fun _ => false) f.start true, exit := fun _ => false }

/-- `handlerNeedsPop`. -/
def handlerNeedsPop (f : Function) (r : HasRegion) (j : Label) : Bool :=
  f.blocks.any fun b =>
    match b.transfer with
    | .call _ _ (.nonTail _ (.handle handlerLabel)) =>
      decide (handlerLabel = j) && r.exit b.label && !blockHasPop f j
    | _ => false

/-- `transferCanEnterStart`. -/
def transferCanEnterStart (f : Function) (t : Transfer) : Bool := f.start ∈ t.labels

/-- The transfers by which control leaves the function. -/
def leaves : Transfer → Bool
  | .raise _ => true
  | .ret _ => true
  | .call _ _ .tail => true
  | _ => false

/-- `needsPopAtExit`. -/
def needsPopAtExit (f : Function) (r : HasRegion) (i : Label) (t : Transfer) : Bool :=
  let enterStart := transferCanEnterStart f t
  let exitNeedsPop := r.exit i && (leaves t || enterStart)
  let tailRecNeedsPop := enterStart && !blockHasPop f i
  exitNeedsPop || tailRecNeedsPop

/-- `maybeAddPush`. -/
def maybeAddPush (f : Function) (stmts : List Statement) (label : Label) (hasPush : Bool) :
    List Statement :=
  if label = f.start ∧ hasPush = false then regionPushStmt :: stmts else stmts

/-- The block with its pushes and pops. -/
def newBlock (f : Function) (r : HasRegion) (b : Block) : Block :=
  let stmts0 :=
    if handlerNeedsPop f r b.label then regionPopStmt :: b.statements else b.statements
  let stmts1 := maybeAddPush f stmts0 b.label (blockHasPush f b.label)
  let stmts2 := if needsPopAtExit f r b.label b.transfer then stmts1 ++ [regionPopStmt] else stmts1
  { b with statements := stmts2 }

/-- `transformFunction`.  It fails without a start block, and on a label without an index. -/
def transformFunction (inCaller : Func → Bool) (f : Function) : Option Function :=
  if (f.block? f.start).isNone then none
  else if !foundStackAlloc inCaller f then some f
  else if f.blocks.all fun b => b.transfer.labels.all fun l => (f.block? l).isSome then
    some { f with blocks := f.blocks.map (newBlock f (propagate f)) }
  else none

/-- `transform`. -/
def transform (p : Program) : Option Program := do
  let functions ← p.functions.mapM (transformFunction (doesFunctionAllocateInCaller p))
  return { p with functions := functions }

end MLton.Ssa.Regions
