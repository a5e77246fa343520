import MLton.Lib.TwoPointLattice
import MLton.Ssa.Tree

/-!
# Ssa/RemoveRegions — dropping regions in which nothing is allocated

A region is opened by a `Region_push` and closed by any of its `Region_pop`s.  `transformFunction`
searches the control-flow graph depth first, keeping the stack of open push-sites, notes which regions
are open at a stack allocation or at a call that may stack-allocate, and deletes the others with all
their pops.
-/

namespace MLton.Ssa.RemoveRegions

/-- `regionId`: a block label and a statement index. -/
abbrev RegionId := Label × ℕ

/-- `regionInfo`. -/
structure RegionInfo where
  pushLoc : RegionId
  hasStackAlloc : Bool
  popLocs : List RegionId
deriving Repr

/-- The references of `transformFunction`: the regions found, the exclave flag, and the stack of open
regions noted for each block. -/
structure State where
  regions : List RegionInfo
  allocatesInCaller : Bool
  blockDepth : Label → Option (List RegionId)

/-- `isStackMode`. -/
def isStackMode (m : Mode) : Bool := m == .stack

/-- `getOrCreateRegion`. -/
def getOrCreateRegion (rs : List RegionInfo) (pushLoc : RegionId) : List RegionInfo :=
  if rs.any (·.pushLoc = pushLoc) then rs
  else { pushLoc := pushLoc, hasStackAlloc := false, popLocs := [] } :: rs

/-- An assignment to the references of `getOrCreateRegion pushLoc`. -/
def updateRegion (rs : List RegionInfo) (pushLoc : RegionId) (g : RegionInfo → RegionInfo) :
    List RegionInfo :=
  (getOrCreateRegion rs pushLoc).map fun r => if r.pushLoc = pushLoc then g r else r

/-- `#hasStackAlloc region := true`. -/
def markRegion (rs : List RegionInfo) (pushLoc : RegionId) : List RegionInfo :=
  updateRegion rs pushLoc fun r => { r with hasStackAlloc := true }

/-- `List.push (#popLocs region, stmtLoc)`. -/
def pushPopLoc (rs : List RegionInfo) (pushLoc stmtLoc : RegionId) : List RegionInfo :=
  updateRegion rs pushLoc fun r => { r with popLocs := stmtLoc :: r.popLocs }

/-- `markRegionsAllocate`: with no region open, the allocation is in the caller's. -/
def markRegionsAllocate (st : State) : List RegionId → State
  | [] => { st with allocatesInCaller := true }
  | regionStack => { st with regions := regionStack.foldl markRegion st.regions }

/-- The mode an expression allocates with, if it allocates; pushes and pops never do. -/
def allocMode : Exp → Option Mode
  | .primApp .regionPush _ _ _ => none
  | .primApp .regionPop _ _ _ => none
  | .primApp _ _ mode _ => mode
  | .conApp _ _ mode => some mode
  | .tuple _ mode => some mode
  | _ => none

/-- `processStatement` at `stmtLoc`, on the state and the stack of open regions. -/
def processStatement (stmtLoc : RegionId) (exp : Exp) (st : State) (currentDepth : List RegionId) :
    State × List RegionId :=
  match exp with
  | .primApp .regionPush _ _ _ =>
    ({ st with regions := getOrCreateRegion st.regions stmtLoc }, stmtLoc :: currentDepth)
  | .primApp .regionPop _ _ _ =>
    match currentDepth with
    | [] => (st, [])
    | pushLoc :: rest => ({ st with regions := pushPopLoc st.regions pushLoc stmtLoc }, rest)
  | e =>
    match allocMode e with
    | some m => (if isStackMode m then markRegionsAllocate st currentDepth else st, currentDepth)
    | none => (st, currentDepth)

/-- `Vector.foreachi (statements, processStatement)`, from statement `i` on. -/
def processStatements (label : Label) :
    ℕ → List Statement → State → List RegionId → State × List RegionId
  | _, [], st, depth => (st, depth)
  | i, s :: ss, st, depth =>
    let (st, depth) := processStatement (label, i) s.exp st depth
    processStatements label (i + 1) ss st depth

/-- `processBlock`: the state, and the stack of open regions at the end of the block. -/
def processBlock (callAllocates : Func → Bool) (b : Block) (st : State)
    (depthStack : List RegionId) : State × List RegionId :=
  let (st, currentDepth) := processStatements b.label 0 b.statements st depthStack
  match b.transfer with
  | .call _ func _ =>
    (if callAllocates func then markRegionsAllocate st currentDepth else st, currentDepth)
  | _ => (st, currentDepth)

/-- The stack of open regions to note for a successor. -/
def noteDepth (exitDepth : List RegionId) (st : State) (succLabel : Label) : State :=
  match st.blockDepth succLabel with
  | none => { st with blockDepth := Function.update st.blockDepth succLabel (some exitDepth) }
  | some existingDepth =>
    if exitDepth.length < existingDepth.length then
      { st with blockDepth := Function.update st.blockDepth succLabel (some exitDepth) }
    else st

/-- What the search does on entering a block. -/
def enterBlock (callAllocates : Func → Bool) (f : Function) (st : State) (label : Label) : State :=
  match f.block? label with
  | none => st
  | some b =>
    let entryDepth := (st.blockDepth label).getD []
    let (st, exitDepth) := processBlock callAllocates b st entryDepth
    b.transfer.labels.foldl (noteDepth exitDepth) st

/-- The state the search ends in. -/
def analyze (callAllocates : Func → Bool) (f : Function) : State :=
  (Dfs.search f.succs (enterBlock callAllocates f) (fun st _ => st) (f.labels.length + 1)
    { regions := [], allocatesInCaller := false, blockDepth := fun _ => none } f.start).2

/-- `stmtsToRemove`: the pushes and the pops of the regions without an allocation. -/
def stmtsToRemove (rs : List RegionInfo) : List RegionId :=
  rs.flatMap fun region => if region.hasStackAlloc then [] else region.pushLoc :: region.popLocs

/-- A block without the statements to remove. -/
def removeStatements (remove : List RegionId) (b : Block) : Block :=
  { b with
    statements := (b.statements.zipIdx.filter fun p => (b.label, p.2) ∉ remove).map Prod.fst }

/-- `transformFunction`: the new function, and whether it allocates in its caller's region. -/
def transformFunction (callAllocates : Func → Bool) (f : Function) : Function × Bool :=
  let st := analyze callAllocates f
  let remove := stmtsToRemove st.regions
  ({ f with blocks := f.blocks.map (removeStatements remove) }, st.allocatesInCaller)

/-! ## The whole program -/

/-- The lattice elements of a function: `Allocates` and `AllocatesInCaller`. -/
inductive Elt where
  | alloc (f : Func)
  | inCaller (f : Func)
deriving DecidableEq, Repr

/-- The functions a program mentions. -/
def funcs (p : Program) : List Func :=
  p.functions.flatMap fun f => f.name :: f.blocks.filterMap fun b =>
    match b.transfer with
    | .call _ func _ => some func
    | _ => none

/-- The bound on raises: one for each lattice element of the program. -/
def fuel (p : Program) : ℕ := 2 * (funcs p).length + 1

/-- First pass: a caller stack-allocates if its callee does, or if it allocates in its caller. -/
def callHandlers (n : ℕ) (name : Func) (s : TwoPointLattice.Store Elt) (b : Block) :
    TwoPointLattice.Store Elt :=
  match b.transfer with
  | .call _ func _ =>
    let s := TwoPointLattice.addHandler n s (.alloc func) (.alloc name)
    TwoPointLattice.addHandler n s (.inCaller func) (.alloc name)
  | _ => s

/-- Second pass, on one statement: a direct stack allocation. -/
def directAlloc (n : ℕ) (name : Func) (s : TwoPointLattice.Store Elt) (st : Statement) :
    TwoPointLattice.Store Elt :=
  match st.exp with
  | .primApp _ _ (some .stack) _ => TwoPointLattice.makeTop n s (.alloc name)
  | .conApp _ _ .stack => TwoPointLattice.makeTop n s (.alloc name)
  | .tuple _ .stack => TwoPointLattice.makeTop n s (.alloc name)
  | _ => s

/-- The lattice after the first two passes. -/
def discover (p : Program) : TwoPointLattice.Store Elt :=
  let s := p.functions.foldl (fun s f => f.blocks.foldl (callHandlers (fuel p) f.name) s)
    { tops := [], handlers := fun _ => [] }
  p.functions.foldl
    (fun s f => f.blocks.foldl (fun s b => b.statements.foldl (directAlloc (fuel p) f.name) s) s) s

/-- Whether a call to a function counts as a stack allocation. -/
def callAllocates (s : TwoPointLattice.Store Elt) (func : Func) : Bool :=
  TwoPointLattice.isTop s (.alloc func) || TwoPointLattice.isTop s (.inCaller func)

/-- One round's news about a function: the lattice, and whether anything was new. -/
def noteInCaller (n : ℕ) (acc : TwoPointLattice.Store Elt × Bool) (r : Function × Function × Bool) :
    TwoPointLattice.Store Elt × Bool :=
  if r.2.2 && !TwoPointLattice.isTop acc.1 (.inCaller r.1.name) then
    (TwoPointLattice.makeTop n acc.1 (.inCaller r.1.name), true)
  else acc

/-- `iterateUntilFixed`.  The first number bounds the rounds: each but the last finds a function that
allocates in its caller and was not known to. -/
def iterateUntilFixed (n : ℕ) :
    ℕ → TwoPointLattice.Store Elt → List Function → List Function
  | 0, _, currentFunctions => currentFunctions
  | k + 1, s, currentFunctions =>
    let newFunctionsAndFlags := currentFunctions.map (transformFunction (callAllocates s))
    let newFunctions := newFunctionsAndFlags.map Prod.fst
    let (s, anyNewExclave) :=
      (currentFunctions.zip newFunctionsAndFlags).foldl (noteInCaller n) (s, false)
    if anyNewExclave then iterateUntilFixed n k s newFunctions else newFunctions

/-- `transform`. -/
def transform (p : Program) : Program :=
  { p with
    functions := iterateUntilFixed (fuel p) (p.functions.length + 1) (discover p) p.functions }

end MLton.Ssa.RemoveRegions
