import Mathlib.Algebra.GroupWithZero.Nat
import MLton.Atoms

/-!
# Rssa/Tree — the RSSA intermediate language

RSSA is a control-flow graph of labelled blocks over representation types: every value is a word of
a known width, memory is addressed by offsets, and the exception stack is manipulated by explicit
statements (`setExnStackLocal`, `setExnStackSlot`, `setHandler`, `setSlotExnStack`).
-/

namespace MLton.Rssa

/-- The index of an object type. -/
structure ObjptrTycon where
  index : ℕ
deriving DecidableEq, Repr

/-- A word constant: a value that fits the width it is written at. -/
structure WordX where
  size : ℕ
  value : ℕ
  value_lt : value < 2 ^ size
deriving DecidableEq, Repr

mutual

/-- A representation type: a node and the number of bits it occupies. -/
inductive Ty where
  | mk (node : Node) (width : ℕ)

/-- The shapes of representation types. -/
inductive Node where
  | bits
  | cpointer
  | label (l : Label)
  | objptr (opts : List ObjptrTycon)
  | real (bits : ℕ)
  | seq (ts : List Ty)
  | word (bits : ℕ)

end

namespace Ty

/-- The shape of a type. -/
def node : Ty → Node
  | mk n _ => n

/-- The number of bits a value of the type occupies. -/
def width : Ty → ℕ
  | mk _ w => w

/-- `Bits.toBytes o width`. -/
def bytes (t : Ty) : ℕ := t.width / 8

end Ty

/-- Object types; each component is paired with whether it is mutable. -/
inductive ObjectType where
  | normal (components : List (Ty × Bool)) (hasIdentity : Bool)
  | sequence (components : List (Ty × Bool)) (hasIdentity : Bool)
  | stack
  | weak (ty : Option Ty)

namespace ObjectType

/-- `ObjectType.components`. -/
def components : ObjectType → Option (List (Ty × Bool))
  | normal cs _ => some cs
  | sequence cs _ => some cs
  | _ => none

/-- `ObjectType.componentsSize`. -/
def componentsSize (t : ObjectType) : Option ℕ :=
  t.components.map fun cs => (cs.map fun c => c.1.bytes).sum

end ObjectType

/-- The constants an operand may hold. -/
inductive Const where
  | cSymbol (name : ℕ)
  | intInf (i : ℤ)
  | null
  | real (bits : ℕ)
  | word (w : WordX)
  | wordVector (elementSize : ℕ) (elements : List WordX)

/-- The fields of the runtime state an operand may name. -/
inductive GCField where
  | atomicState
  | cardMapAbsolute
  | curSourceSeqIndex
  | exnStack
  | frontier
  | limit
  | limitPlusSlop
  | regionTop
  | regionBase
  | regionBuffer
  | signalIsPending
  | stackBottom
  | stackLimit
  | stackTop
deriving DecidableEq, Repr

/-- Operands: constants, variables and the memory they address. -/
inductive Operand where
  | cast (z : Operand) (ty : Ty)
  | const (c : Const)
  | gcState
  | offset (base : Operand) (offset : ℕ) (ty : Ty)
  | objptrTycon (opt : ObjptrTycon)
  | runtime (f : GCField)
  | sequenceOffset (base index : Operand) (offset scale : ℕ) (ty : Ty)
  | var (var : Var) (ty : Ty)

/-- `Operand.foldVars`, as the list of variables in fold order. -/
def Operand.vars : Operand → List Var
  | cast z _ => z.vars
  | const _ => []
  | gcState => []
  | offset base _ _ => base.vars
  | objptrTycon _ => []
  | runtime _ => []
  | sequenceOffset base index _ _ _ => base.vars ++ index.vars
  | var x _ => [x]

/-- One initialised component of an object. -/
structure Init where
  offset : ℕ
  src : Operand

/-- The objects a statement allocates. -/
inductive Object where
  | normal (init : List Init) (tycon : ObjptrTycon)
  | sequence (init : List (List Init)) (tycon : ObjptrTycon)

/-- `Object.foldUse` over the variables of its operands. -/
def Object.vars : Object → List Var
  | normal init _ => init.flatMap fun i => i.src.vars
  | sequence init _ => init.flatten.flatMap fun i => i.src.vars

/-- RSSA statements.  A primitive is kept by name only. -/
inductive Statement where
  | bind (dst : Var × Ty) (pinned : Bool) (src : Operand)
  | move (dst src : Operand)
  | object (dst : Var × Ty) (obj : Object) (mode : Mode)
  | primApp (args : List Operand) (dst : Option (Var × Ty)) (prim : ℕ)
  | profile (e : ℕ)
  | setExnStackLocal
  | setExnStackSlot
  | setHandler (l : Label)
  | setSlotExnStack

namespace Statement

/-- `Statement.foldDef`: the variable a statement defines, if any. -/
def defs : Statement → List (Var × Ty)
  | bind dst _ _ => [dst]
  | object dst _ _ => [dst]
  | primApp _ dst _ => dst.toList
  | _ => []

/-- `Statement.foldUse`: the variables a statement reads. -/
def uses : Statement → List Var
  | bind _ _ src => src.vars
  | move dst src => dst.vars ++ src.vars
  | object _ obj _ => obj.vars
  | primApp args _ _ => args.flatMap Operand.vars
  | _ => []

end Statement

/-- What the code generator knows of a C function that the runtime provides. -/
structure RuntimeKind where
  bytesNeeded : Option ℕ
  ensuresBytesFree : Option ℕ
  mayGC : Bool
  maySwitchThreadsFrom : Bool
  maySwitchThreadsTo : Bool
  modifiesFrontier : Bool
  readsStackTop : Bool
  writesStackTop : Bool
  readsRegionTop : Bool
  writesRegionTop : Bool
deriving DecidableEq, Repr

/-- `CFunction.Kind`. -/
inductive CFunctionKind where
  | impure
  | pure
  | runtime (r : RuntimeKind)
deriving DecidableEq, Repr

/-- A C function: its target is kept by name only. -/
structure CFunction where
  kind : CFunctionKind
  target : ℕ
deriving DecidableEq, Repr

namespace CFunction

/-- The position of the argument holding the bytes the call allocates. -/
def bytesNeeded (f : CFunction) : Option ℕ :=
  match f.kind with
  | .runtime r => r.bytesNeeded
  | _ => none

/-- The position of the argument holding the bytes the call leaves free. -/
def ensuresBytesFree (f : CFunction) : Option ℕ :=
  match f.kind with
  | .runtime r => r.ensuresBytesFree
  | _ => none

/-- Whether the call may collect. -/
def mayGC (f : CFunction) : Bool :=
  match f.kind with
  | .runtime r => r.mayGC
  | _ => false

end CFunction

/-- A multiway branch on a word. -/
structure Switch where
  cases : List (WordX × Label)
  default : Option Label
  expect : Option WordX
  size : ℕ
  test : Operand

/-- `Switch.foldLabelUse` on labels: the default, then the cases. -/
def Switch.labels (s : Switch) : List Label := s.default.toList ++ s.cases.map Prod.snd

/-- How a block ends. -/
inductive Transfer where
  | ccall (args : List Operand) (func : CFunction) (ret : Option Label)
  | call (args : List Operand) (func : Func) (ret : Return)
  | goto (args : List Operand) (dst : Label)
  | raise (args : List Operand)
  | ret (args : List Operand)
  | switch (s : Switch)

namespace Transfer

/-- `Transfer.foreachLabel`, as the list of labels in the order they are visited. -/
def labels : Transfer → List Label
  | ccall _ _ r => r.toList
  | call _ _ r => r.labels
  | goto _ dst => [dst]
  | raise _ => []
  | ret _ => []
  | switch s => s.labels

/-- `Transfer.foreachUse`: the variables a transfer reads. -/
def uses : Transfer → List Var
  | ccall args _ _ => args.flatMap Operand.vars
  | call args _ _ => args.flatMap Operand.vars
  | goto args _ => args.flatMap Operand.vars
  | raise args => args.flatMap Operand.vars
  | ret args => args.flatMap Operand.vars
  | switch s => s.test.vars

end Transfer

/-- How control enters a block. -/
inductive Kind where
  | cont (handler : Handler)
  | creturn (func : CFunction)
  | handler
  | jump
deriving DecidableEq, Repr

/-- A basic block. -/
structure Block where
  args : List (Var × Ty)
  kind : Kind
  label : Label
  statements : List Statement
  transfer : Transfer

/-- A function: its blocks, and the label control enters at. -/
structure Function where
  args : List (Var × Ty)
  blocks : List Block
  name : Func
  raises : Option (List Ty)
  returns : Option (List Ty)
  start : Label

namespace Function

/-- The block a label names. -/
def block? (f : Function) (l : Label) : Option Block := f.blocks.find? (·.label = l)

/-- The targets of the block a label names. -/
def succs (f : Function) (l : Label) : List Label :=
  match f.block? l with
  | some b => b.transfer.labels
  | none => []

/-- Every label the function mentions, as a block or as a target. -/
def labels (f : Function) : List Label :=
  f.start :: f.blocks.flatMap fun b => b.label :: b.transfer.labels

theorem block?_label {f : Function} {l : Label} {b : Block} (h : f.block? l = some b) :
    b.label = l := by
  simpa using List.find?_some h

theorem block?_mem {f : Function} {l : Label} {b : Block} (h : f.block? l = some b) :
    b ∈ f.blocks :=
  List.mem_of_find?_eq_some h

end Function

/-- A program.  What no pass modelled here reads is left out. -/
structure Program where
  functions : List Function
  handlesSignals : Bool
  main : Function

end MLton.Rssa
