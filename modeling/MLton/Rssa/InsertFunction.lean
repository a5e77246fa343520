import MLton.Rssa.InsertChecks

/-!
# Rssa/InsertFunction — the checks in front of a block

`insertFunction` moves the statements of a block that needs a check to a new block, and chains tests in front of
it, from the last to the first: each test goes on to the next one, or to a shared block that collects.  The amount
is asked for statically, where it is a constant, or computed at run time, where the transfer needs a count of bytes
that is not known.
-/

namespace MLton.Rssa.InsertChecks

/-- `Control.gcCheck`. -/
inductive GcCheck where
  | every
  | first
  | limit
deriving DecidableEq, Repr

/-- The controls that are read, and the number of bits of `csize`. -/
structure CheckControl where
  csize : ℕ
  gcCheck : GcCheck
  limitCheckExpect : Option Bool
  signalCheckAtLimitCheck : Bool
  signalCheckExpect : Option Bool
  stackCheckExpect : Option Bool

/-- The primitives that checks use. -/
inductive CheckPrim where
  | cpointerDiff
  | cpointerEqual
  | cpointerLt
  | wordAdd
  | wordAddCheckP
  | wordLt
deriving DecidableEq, Repr

/-- The name of a primitive in a statement. -/
def CheckPrim.name : CheckPrim → ℕ
  | cpointerDiff => 0
  | cpointerEqual => 1
  | cpointerLt => 2
  | wordAdd => 3
  | wordAddCheckP => 4
  | wordLt => 5

/-! ## Constants and C functions -/

/-- `WordX.make`: the value is reduced, and there is no overflow. -/
def mkWord (i size : ℕ) : WordX := ⟨size, i % 2 ^ size, Nat.mod_lt _ (Nat.two_pow_pos size)⟩

/-- `WordX.fromBytes`. -/
def fromBytes (b size : ℕ) : WordX := mkWord b size

/-- `WordX.isZero`. -/
def isZeroWord (w : WordX) : Bool := w.value = 0

/-- `Operand.word`. -/
def wordOper (w : WordX) : Operand := .const (.word w)

/-- `Operand.null`. -/
def nullOper : Operand := .const .null

/-- `WordSize.bool`. -/
def boolSize : ℕ := 32

/-- `Operand.bool`. -/
def boolOper (b : Bool) : Operand := wordOper (mkWord (if b then 1 else 0) boolSize)

/-- `Type.bool`. -/
def boolTy : Ty := .mk (.word boolSize) boolSize

/-- `Type.csize ()`. -/
def csizeTy (csize : ℕ) : Ty := .mk (.word csize) csize

/-- `Runtime.limitSlop`. -/
def limitSlop : ℕ := 512

/-- `CFunction.gc`. -/
def gcFunction (maySwitchThreads : Bool) : CFunction where
  kind := .runtime
    { bytesNeeded := none, ensuresBytesFree := some 1, mayGC := true, maySwitchThreadsFrom := maySwitchThreads
      maySwitchThreadsTo := maySwitchThreads, modifiesFrontier := true, readsStackTop := true
      writesStackTop := true, readsRegionTop := false, writesRegionTop := false }
  target := 0

/-- `MLton_heapCheckTooLarge`. -/
def heapCheckTooLargeFunction : CFunction where
  kind := .runtime
    { bytesNeeded := none, ensuresBytesFree := none, mayGC := false, maySwitchThreadsFrom := false
      maySwitchThreadsTo := false, modifiesFrontier := false, readsStackTop := false, writesStackTop := false
      readsRegionTop := false, writesRegionTop := false }
  target := 1

/-- The two targets of a test. -/
structure Branches where
  falsee : Label
  truee : Label

/-- `Transfer.ifBoolE`, on a test of type `bool`. -/
def ifBoolE (test : Operand) (expect : Option Bool) (br : Branches) : Transfer :=
  .switch
    { cases := [(mkWord 0 boolSize, br.falsee), (mkWord 1 boolSize, br.truee)]
      default := none
      expect := expect.map fun expect => if expect then mkWord 1 boolSize else mkWord 0 boolSize
      size := boolSize
      test := test }

/-! ## The state -/

/-- The references of `insertFunction`: the new blocks, latest first, the label of `heapCheckTooLarge`, and the
flags and names handed out so far. -/
structure InsertState where
  newBlocks : List Block
  tooLarge : Option Label
  flags : ℕ
  labels : ℕ
  vars : ℕ

/-- `newBlock`. -/
def newBlock (b : Block) : StateM InsertState Unit := fun s => ((), { s with newBlocks := b :: s.newBlocks })

/-- `Label.newNoname`. -/
def newLabel : StateM InsertState Label := fun s => (⟨s.labels⟩, { s with labels := s.labels + 1 })

/-- `Var.newNoname`. -/
def newVar : StateM InsertState Var := fun s => (⟨s.vars⟩, { s with vars := s.vars + 1 })

/-- A block made by the pass. -/
def jumpBlock (label : Label) (statements : List Statement) (transfer : Transfer) : Block :=
  { args := [], kind := .jump, label := label, statements := statements, transfer := transfer }

/-- `heapCheckTooLarge`. -/
def heapCheckTooLarge : StateM InsertState Label := do
  match (← get).tooLarge with
  | some l => return l
  | none =>
    let l ← newLabel
    modify fun s => { s with tooLarge := some l }
    newBlock (jumpBlock l [] (.ccall [] heapCheckTooLargeFunction none))
    return l

/-! ## One block -/

/-- The argument that tells the bytes a C call leaves free.  It fails on `valOf` of no return. -/
def ensureBytesFree (ctl : CheckControl) (ensureFree : Label → ℕ) : Transfer → Option Transfer
  | .ccall args func ret =>
    match func.ensuresBytesFree with
    | none => some (.ccall args func ret)
    | some i =>
      if i < args.length then
        ret.map fun l => .ccall (args.set i (wordOper (fromBytes (ensureFree l) ctl.csize))) func ret
      else some (.ccall args func ret)
  | t => some t

/-- What `mkCollect` returns, and the label under which it puts the statements of the block. -/
structure Collect where
  collect : Label
  dontCollect : Label
  doneCollect : Label

/-- `mkCollect`. -/
def mkCollect (ctl : CheckControl) (handlesSignals : Bool) (newFlag : ℕ → Operand) (statements : List Statement)
    (transfer : Transfer) (amount : Operand) : StateM InsertState Collect := do
  let collect ← newLabel
  let collectReturn ← newLabel
  let doneCollect ← newLabel
  let (dontCollect, collectReturnStatements, force) ← match ctl.gcCheck with
    | .first => do
      let flag := newFlag (← get).flags
      modify fun s => { s with flags := s.flags + 1 }
      let dontCollect ← newLabel
      newBlock (jumpBlock dontCollect [] (ifBoolE flag none ⟨doneCollect, collect⟩))
      pure (dontCollect, [Statement.move flag (boolOper false)], flag)
    | .limit => pure (doneCollect, [], boolOper false)
    | .every => pure (collect, [], boolOper true)
  let func := gcFunction handlesSignals
  newBlock (jumpBlock doneCollect statements transfer)
  newBlock
    { args := [], kind := .creturn func, label := collectReturn, statements := collectReturnStatements
      transfer := .goto [] doneCollect }
  newBlock (jumpBlock collect [] (.ccall [.gcState, amount, force] func (some collectReturn)))
  return ⟨collect, dontCollect, doneCollect⟩

/-- `primAppIf'`. -/
def primAppIf' (addPrefix : Statement → List Statement) (prim : CheckPrim) (arg1 arg2 : Operand)
    (expect : Option Bool) (br : Branches) : StateM InsertState (List Statement × Transfer) := do
  let res ← newVar
  return (addPrefix (.primApp [arg1, arg2] (some (res, boolTy)) prim.name), ifBoolE (.var res boolTy) expect br)

/-- `primAppIf`. -/
def primAppIf (prim : CheckPrim) (arg1 arg2 : Operand) (expect : Option Bool) (br : Branches) :
    StateM InsertState (List Statement × Transfer) :=
  primAppIf' (fun s => [s]) prim arg1 arg2 expect br

/-- `datatype limitCheck`. -/
inductive LimitCheck where
  | zero
  | small
  | large (oper : Operand)

/-- `mkSmallLimitCheck`. -/
def mkSmallLimitCheck (ctl : CheckControl) (collect nextCheck : Label) : StateM InsertState Label := do
  let limitCheck ← newLabel
  let (statements, transfer) ← primAppIf .cpointerLt (.runtime .limit) (.runtime .frontier) ctl.limitCheckExpect
    ⟨nextCheck, collect⟩
  newBlock (jumpBlock limitCheck statements transfer)
  return limitCheck

/-- `mkLargeLimitCheck`. -/
def mkLargeLimitCheck (ctl : CheckControl) (amount : Operand) (collect nextCheck : Label) :
    StateM InsertState Label := do
  let limitCheck ← newLabel
  let avail ← newVar
  let calcAvail : Statement := .primApp [.runtime .limitPlusSlop, .runtime .frontier]
    (some (avail, csizeTy ctl.csize)) CheckPrim.cpointerDiff.name
  let (statements, transfer) ← primAppIf' (fun cmp => [calcAvail, cmp]) .wordLt (.var avail (csizeTy ctl.csize))
    amount ctl.limitCheckExpect ⟨nextCheck, collect⟩
  newBlock (jumpBlock limitCheck statements transfer)
  return limitCheck

/-- `mkLimitCheck`. -/
def mkLimitCheck (ctl : CheckControl) (limitCheck : LimitCheck) (collect nextCheck : Label) :
    StateM InsertState Label :=
  match limitCheck with
  | .zero => return nextCheck
  | .small => mkSmallLimitCheck ctl collect nextCheck
  | .large oper => mkLargeLimitCheck ctl oper collect nextCheck

/-- `mkSignalCheck`.  A small limit check is a signal check too. -/
def mkSignalCheck (ctl : CheckControl) (handlesSignals needsSignalCheck : Bool) (limitCheck : LimitCheck)
    (collect nextCheck : Label) : StateM InsertState Label :=
  match limitCheck with
  | .zero => if needsSignalCheck then mkSmallLimitCheck ctl collect nextCheck else return nextCheck
  | .small => return nextCheck
  | .large _ =>
    if needsSignalCheck || (ctl.signalCheckAtLimitCheck && handlesSignals) then do
      let signalCheck ← newLabel
      let (statements, transfer) ← primAppIf .cpointerEqual (.runtime .limit) nullOper ctl.signalCheckExpect
        ⟨nextCheck, collect⟩
      newBlock (jumpBlock signalCheck statements transfer)
      return signalCheck
    else return nextCheck

/-- `mkStackCheck`. -/
def mkStackCheck (ctl : CheckControl) (needsStackCheck : Bool) (collect nextCheck : Label) :
    StateM InsertState Label :=
  if needsStackCheck then do
    let stackCheck ← newLabel
    let (statements, transfer) ← primAppIf .cpointerLt (.runtime .stackLimit) (.runtime .stackTop)
      ctl.stackCheckExpect ⟨nextCheck, collect⟩
    newBlock (jumpBlock stackCheck statements transfer)
    return stackCheck
  else return nextCheck

/-- What the checks of one block are made from. -/
structure Checked where
  statements : List Statement
  transfer : Transfer
  needsStackCheck : Bool
  needsSignalCheck : Bool

/-- What the function's checks are made from. -/
structure Inserting where
  ctl : CheckControl
  handlesSignals : Bool
  newFlag : ℕ → Operand

/-- The amount that `mkChecks` asks for. -/
def LimitCheck.amount (ctl : CheckControl) : LimitCheck → Operand
  | .zero => wordOper (mkWord 0 ctl.csize)
  | .small => wordOper (mkWord 0 ctl.csize)
  | .large oper => oper

/-- `mkChecks`: the first check, and the label under which the statements of the block are. -/
def mkChecks (I : Inserting) (c : Checked) (limitCheck : LimitCheck) : StateM InsertState (Label × Label) := do
  let ⟨collect, dontCollect, doneCollect⟩ ←
    mkCollect I.ctl I.handlesSignals I.newFlag c.statements c.transfer (limitCheck.amount I.ctl)
  let nextCheck ← mkSignalCheck I.ctl I.handlesSignals c.needsSignalCheck limitCheck collect dontCollect
  let nextCheck ← mkLimitCheck I.ctl limitCheck collect nextCheck
  let nextCheck ← mkStackCheck I.ctl c.needsStackCheck collect nextCheck
  return (nextCheck, doneCollect)

/-- The statements and the transfer that a block is left with, and the label under which its own ones are. -/
structure Entry where
  statements : List Statement
  transfer : Transfer
  body : Label

/-- `gotoChecks`. -/
def gotoChecks (I : Inserting) (c : Checked) (limitCheck : LimitCheck) : StateM InsertState Entry := do
  let (first, body) ← mkChecks I c limitCheck
  return ⟨[], .goto [] first, body⟩

/-- `bigAllocation`. -/
def bigAllocation (I : Inserting) (c : Checked) (blockBytesNeeded : WordX) (transferBytesNeeded : Operand) :
    StateM InsertState Entry := do
  if isZeroWord blockBytesNeeded then gotoChecks I c (.large transferBytesNeeded)
  else
    let bytesNeeded ← newVar
    let bytesNeededOper : Operand := .var bytesNeeded (csizeTy I.ctl.csize)
    let overflow ← newVar
    let (first, body) ← mkChecks I c (.large bytesNeededOper)
    let tooLarge ← heapCheckTooLarge
    return ⟨[.primApp [wordOper blockBytesNeeded, transferBytesNeeded]
        (some (bytesNeeded, csizeTy I.ctl.csize)) CheckPrim.wordAdd.name,
      .primApp [wordOper blockBytesNeeded, transferBytesNeeded] (some (overflow, boolTy))
        CheckPrim.wordAddCheckP.name],
      ifBoolE (.var overflow boolTy) none ⟨first, tooLarge⟩, body⟩

/-- The checks of the block at `label`.  `WordX.fromBytes` raises no `Overflow`, and so nothing escapes. -/
def entryOf (I : Inserting) (c : Checked) (label : Label) (blockBytesNeeded : ℕ) (allocated : BytesAllocated) :
    StateM InsertState Entry :=
  let blockBytesNeededAsCSize := fromBytes blockBytesNeeded I.ctl.csize
  match allocated with
  | .dynamic transferBytesNeeded => bigAllocation I c blockBytesNeededAsCSize transferBytesNeeded
  | .static _ =>
    let limitCheck :=
      if blockBytesNeeded = 0 then LimitCheck.zero
      else if blockBytesNeeded ≤ limitSlop then .small
      else .large (wordOper blockBytesNeededAsCSize)
    match limitCheck, c.needsSignalCheck, c.needsStackCheck with
    | .zero, false, false => return ⟨c.statements, c.transfer, label⟩
    | _, _, _ => gotoChecks I c limitCheck

/-- The arguments of `insertFunction` that differ between blocks. -/
structure Needs where
  blockLimitCheckAmount : Label → ℕ
  ensureFree : Label → ℕ
  needsSignalCheck : Label → Bool

/-- The body of `insertFunction` at one block.  It fails on `valOf` of no return, and on a strange `bytesNeeded`
argument.  The label under which the block's own statements are is added to the list. -/
def insertBlock (I : Inserting) (needs : Needs) (start : Label) (st : InsertState × List (Label × Label)) (b : Block) :
    Option (InsertState × List (Label × Label)) := do
  let transfer ← ensureBytesFree I.ctl needs.ensureFree b.transfer
  let allocated ← transferBytesAllocated transfer
  let checked : Checked := ⟨b.statements, transfer, decide (start = b.label), needs.needsSignalCheck b.label⟩
  let (entry, s) := entryOf I checked b.label (needs.blockLimitCheckAmount b.label) allocated st.1
  let ((), s) := newBlock { b with statements := entry.statements, transfer := entry.transfer } s
  return (s, (b.label, entry.body) :: st.2)

/-- What `insertFunction` makes: the function, and for each block of the old one the label under which its own
statements are. -/
structure Inserted where
  function : Function
  bodies : List (Label × Label)
  labels : ℕ

/-- `insertFunction`, with the next names for labels and variables. -/
def insertFunction (I : Inserting) (needs : Needs) (labels vars : ℕ) (f : Function) : Option Inserted := do
  let (s, bodies) ← f.blocks.foldlM (insertBlock I needs f.start) (⟨[], none, 0, labels, vars⟩, [])
  return ⟨{ f with blocks := s.newBlocks }, bodies, s.labels⟩

end MLton.Rssa.InsertChecks
