import MLton.Ssa.DominatorTree

/-!
# Ssa/CleanUp — the passes that rebuild every expression

`RemoveUnused`, `SimplifyTypes`, `SplitTypes` and `ShareZeroVec` make the statements of a program anew.  What
each of them finds out first is given to it here: the results of its analysis are the fields of a structure, of
which nothing is assumed, and so are its transfers and formals.  The functions are those before the shrinker.
-/

namespace MLton.Ssa

/-- A program, with its globals. -/
structure Code where
  globals : List Statement
  functions : List Function

/-- The statements of a program. -/
def Code.statements (c : Code) : List Statement :=
  c.globals ++ c.functions.flatMap fun f => f.blocks.flatMap (·.statements)

/-- `Prim.maySideEffect`. -/
def Prim.maySideEffect (p : Prim) : Bool := p.kind = .sideEffect

/-- `Exp.maySideEffect`. -/
def Exp.maySideEffect : Exp → Bool
  | .primApp prim _ _ _ => prim.maySideEffect
  | _ => false

/-- `Exp.unit`. -/
def Exp.unit : Exp := .tuple [] .constant

/-- The expression is a profiling mark. -/
def Exp.isProfile : Exp → Bool
  | .profile _ => true
  | _ => false

/-! ## RemoveUnused -/

namespace RemoveUnused

/-- **What the analysis found**: the variables, arguments, constructors, blocks and functions that are used. -/
structure Analysis where
  isUsedVar : Var → Bool
  isDeconed : Con → Bool
  conArgs : Con → List Bool
  dummyCon : Con → Con
  isUsedLabel : Label → Bool
  labelArgs : Label → List Bool
  isUsedFunc : Func → Bool
  funcArgs : Func → List Bool
  returns : Func → Option (List Ty)
  raises : Func → Option (List Ty)
  transfer : Func → Transfer → Transfer
  wrappers : Func → List (Label × List (Var × Ty) × Transfer)

mutual

/-- `simplifyType`. -/
def simplifyType : Ty → Ty
  | .array t => .array (simplifyType t)
  | .ref t => .ref (simplifyType t)
  | .tuple ts => .tuple (simplifyTypes ts)
  | .vector t => .vector (simplifyType t)
  | .weak t => .weak (simplifyType t)
  | .cpointer => .cpointer
  | .datatype tycon => .datatype tycon
  | .intInf => .intInf
  | .real size => .real size
  | .thread => .thread
  | .word size => .word size

/-- `simplifyType`, of types. -/
def simplifyTypes : List Ty → List Ty
  | [] => []
  | t :: ts => simplifyType t :: simplifyTypes ts

end

/-- `Vector.keepAllMap2`, of what is used. -/
def keepUsed {α : Type} : List α → List Bool → List α
  | x :: xs, used :: useds => if used then x :: keepUsed xs useds else keepUsed xs useds
  | _, _ => []

variable (A : Analysis)

/-- The `exp` of `ConInfo.dummy`. -/
def dummyExp (con : Con) : Exp := .conApp (A.dummyCon con) [] .heap

/-- `simplifyExp`. -/
def simplifyExp : Exp → Exp
  | .conApp con args mode =>
      if A.isDeconed con then .conApp con (keepUsed args (A.conArgs con)) mode else dummyExp A con
  | .primApp prim targs _ args => .primApp prim (simplifyTypes targs) none args
  | e => e

/-- `simplifyStatement`. -/
def simplifyStatement (s : Statement) : Option Statement :=
  if s.exp.isProfile then some s
  else
    let doit' (var : Option Var) : Option Statement := some ⟨var, simplifyType s.ty, simplifyExp A s.exp⟩
    let doit (var' : Option Var) : Option Statement :=
      if s.exp.maySideEffect then doit' var' else if var'.isSome then doit' var' else none
    match s.var with
    | some var => if A.isUsedVar var then doit (some var) else doit none
    | none => doit none

/-- `simplifyStatements`. -/
def simplifyStatements (ss : List Statement) : List Statement := ss.filterMap (simplifyStatement A)

/-- `simplifyBlock`. -/
def simplifyBlock (func : Func) (b : Block) : Option Block :=
  if A.isUsedLabel b.label then
    some ⟨(keepUsed b.args (A.labelArgs b.label)).map fun (x, ty) => (x, simplifyType ty), b.label,
      simplifyStatements A b.statements, A.transfer func b.transfer⟩
  else none

/-- `simplifyFunction`. -/
def simplifyFunction (f : Function) : Option Function :=
  if A.isUsedFunc f.name then
    some
      { f with
        args := (keepUsed f.args (A.funcArgs f.name)).map fun (x, ty) => (x, simplifyType ty)
        blocks := (A.wrappers f.name).map (fun (l, args, transfer) => ⟨args, l, [], transfer⟩) ++
          f.blocks.filterMap (simplifyBlock A f.name)
        returns := A.returns f.name
        raises := A.raises f.name }
  else none

/-- `transform`. -/
def transform (c : Code) : Code := ⟨simplifyStatements A c.globals, c.functions.filterMap (simplifyFunction A)⟩

end RemoveUnused

/-! ## SimplifyTypes -/

namespace SimplifyTypes

/-- `ConRep`. -/
inductive ConRep where
  | useless
  | transparent
  | useful
  deriving DecidableEq

/-- **What the analysis found**: how constructors are represented, what types become, and how many values they
have. -/
structure Analysis where
  conRep : Con → ConRep
  simplifyType : Ty → Ty
  typeVoid : Ty
  isOne : Ty → Bool
  isZero : Ty → Bool
  oldVarType : Var → Ty
  unitVar : Var
  truee : Con
  seqIndex : ℕ
  transfer : Transfer → List (Var × Ty × Var × ℕ) × Transfer

variable (A : Analysis)

/-- `simplifyTypes`. -/
def simplifyTypes (ts : List Ty) : List Ty := ts.map A.simplifyType

/-- `simplifyUsefulTypesOpt`. -/
def simplifyUsefulTypesOpt : List Ty → Option (List Ty)
  | [] => some []
  | t :: ts =>
      let t := A.simplifyType t
      if t = A.typeVoid then none
      else if t = .unit then simplifyUsefulTypesOpt ts
      else (simplifyUsefulTypesOpt ts).map (t :: ·)

/-- `typeIsUseful`. -/
def typeIsUseful (t : Ty) : Bool := A.simplifyType t ≠ .unit

/-- `varIsUseful`. -/
def varIsUseful (x : Var) : Bool := typeIsUseful A (A.oldVarType x)

/-- `simplifyVar`. -/
def simplifyVar (x : Var) : Var := if varIsUseful A x then x else A.unitVar

/-- `simplifyVars`. -/
def simplifyVars (xs : List Var) : List Var := xs.map (simplifyVar A)

/-- `simplifyUsefulVars`. -/
def simplifyUsefulVars (xs : List Var) : List Var := xs.filter (varIsUseful A)

/-- `tuple`. -/
def tuple (xs : List Var) (mode : Mode) : Exp :=
  match simplifyUsefulVars A xs with
  | [x] => .var x
  | xs => .tuple xs mode

/-- `simplifyUsefulFormals`. -/
def simplifyUsefulFormals : List (Var × Ty) → Option (List (Var × Ty))
  | [] => some []
  | (x, t) :: xts =>
      let t := A.simplifyType t
      if t = A.typeVoid then none
      else if t = .unit then simplifyUsefulFormals xts
      else (simplifyUsefulFormals xts).map ((x, t) :: ·)

/-- The field of a tuple, among those that are useful; nothing if it has no such field. -/
def select (tuple : Var) (offset : ℕ) : Option Exp :=
  let ts := (A.oldVarType tuple).deTuple
  if offset < ts.length then
    let offset' := (ts.take offset).countP (typeIsUseful A)
    some <|
      if offset' = 0 ∧ ¬ (ts.drop (offset + 1)).any (typeIsUseful A) then .var tuple
      else .select tuple offset'
  else none

/-- `simplifyExp`; nothing where the compiler stops with an error. -/
def simplifyExp : Exp → Option Exp
  | .conApp con args mode =>
      match A.conRep con with
      | .transparent => some (tuple A (simplifyUsefulVars A args) mode)
      | .useful => some (.conApp con (simplifyUsefulVars A args) mode)
      | .useless => none
  | .primApp prim targs mode args =>
      let normal : Exp := .primApp prim (simplifyTypes A targs) none (simplifyVars A args)
      let equal : Exp := if targs.head?.any A.isOne then .conApp A.truee [] (mode.getD .heap) else normal
      let length : Exp := if targs.head?.any A.isZero then .const (.word A.seqIndex 0) else normal
      match prim with
      | .arrayLength => some length
      | .mltonEq => some equal
      | .mltonEqual => some equal
      | .vectorLength => some length
      | _ => some normal
  | .select tuple offset => select A tuple offset
  | .tuple xs mode => some (tuple A xs mode)
  | e => some e

/-- `result`. -/
inductive Result where
  | dead
  | delete
  | keep (s : Statement)

/-- `simplifyStatement`. -/
def simplifyStatement (s : Statement) : Option Result :=
  let ty := A.simplifyType s.ty
  if ty = A.typeVoid then some .dead
  else if ty ≠ .unit ∨ s.exp.maySideEffect ∨ s.exp.isProfile then
    (simplifyExp A s.exp).map fun exp => .keep ⟨s.var, ty, exp⟩
  else some .delete

/-- The statements of a block, where one that is dead ends them. -/
def simplifyStatements : List Statement → Option (Option (List Statement))
  | [] => some (some [])
  | s :: ss => do
      match ← simplifyStatement A s with
      | .dead => some none
      | .delete => simplifyStatements ss
      | .keep s' => return (← simplifyStatements ss).map (s' :: ·)

/-- `simplifyBlock`: whether the block is dead, and the block. -/
def simplifyBlock (b : Block) : Option (Bool × Block) :=
  match simplifyUsefulFormals A b.args with
  | none => some (true, ⟨[], b.label, [], .bug⟩)
  | some args => do
      match ← simplifyStatements A b.statements with
      | none => return (true, ⟨args, b.label, [], .bug⟩)
      | some statements =>
          let (selects, transfer) := A.transfer b.transfer
          let stmts := selects.map fun (x, ty, test, i) => (⟨some x, ty, .select test i⟩ : Statement)
          return (false, ⟨args, b.label, statements ++ stmts, transfer⟩)

mutual

/-- The `loop` of `simplifyFunction`, down the dominator tree; the blocks in the order they are pushed. -/
def loop (f : Function) : Tree Label → Option (List Block)
  | .node l children =>
      match f.block? l with
      | none => loopAll f children
      | some b => do
          let (dead, b) ← simplifyBlock A b
          if dead then return [b] else return b :: (← loopAll f children)

/-- The `loop`, of the children of a node. -/
def loopAll (f : Function) : List (Tree Label) → Option (List Block)
  | [] => some []
  | t :: ts => do return (← loop f t) ++ (← loopAll f ts)

end

/-- `simplifyFunction`. -/
def simplifyFunction (f : Function) : Option (Option Function) :=
  match simplifyUsefulFormals A f.args with
  | none => some none
  | some args => do
      let blocks ← loop A f (← f.dominatorTree)
      let doit (rs : Option (List Ty)) : Option (List Ty) := rs.map fun ts => (simplifyUsefulTypesOpt A ts).getD []
      return some { f with args, blocks := blocks.reverse, returns := doit f.returns, raises := doit f.raises }

/-- The globals that are kept; that one is dead is an error. -/
def simplifyGlobals : List Statement → Option (List Statement)
  | [] => some []
  | s :: ss => do
      match ← simplifyStatement A s with
      | .dead => none
      | .delete => simplifyGlobals ss
      | .keep s' => return s' :: (← simplifyGlobals ss)

/-- The functions that are kept. -/
def simplifyFunctions : List Function → Option (List Function)
  | [] => some []
  | f :: fs => do return (← simplifyFunction A f).toList ++ (← simplifyFunctions fs)

/-- `transform`. -/
def transform (c : Code) : Option Code := do
  let globals ← simplifyGlobals A c.globals
  let functions ← simplifyFunctions A c.functions
  return ⟨⟨some A.unitVar, .unit, .unit⟩ :: globals, functions.reverse⟩

end SimplifyTypes

/-! ## SplitTypes -/

namespace SplitTypes

/-- **What the analysis found**: the types of variables, and what constructors and primitives become at them. -/
structure Analysis where
  getTy : Var → Ty
  remapCon : Con → Ty → Con
  extractTargs : Prim → List Ty → Ty → List Ty
  retype : Prim → List Ty → Ty → Prim
  transfer : Transfer → Transfer
  function : Function → Function

variable (A : Analysis)

/-- `loopExp`. -/
def loopExp (newTy : Ty) : Exp → Exp
  | .conApp con args mode => .conApp (A.remapCon con newTy) args mode
  | .primApp prim _ _ args =>
      let argTys := args.map A.getTy
      .primApp (A.retype prim argTys newTy) (A.extractTargs prim argTys newTy) none args
  | e => e

/-- `loopStatement`. -/
def loopStatement (s : Statement) : Statement :=
  let newTy := s.var.elim s.ty A.getTy
  ⟨s.var, newTy, loopExp A newTy s.exp⟩

/-- `loopBlock`. -/
def loopBlock (b : Block) : Block :=
  ⟨b.args.map fun (x, _) => (x, A.getTy x), b.label, b.statements.map (loopStatement A), A.transfer b.transfer⟩

/-- `transform`; the formals and results of a function are those that `function` gives it. -/
def transform (c : Code) : Code :=
  ⟨c.globals.map (loopStatement A),
    c.functions.map fun f => { A.function f with blocks := f.blocks.map (loopBlock A) }⟩

end SplitTypes

/-! ## ShareZeroVec -/

namespace ShareZeroVec

/-- What the pass has made: the names, the arrays without elements, and their statements, the last first. -/
structure State where
  next : Supply
  hs : List (Ty × Var)
  newGlobals : List Statement

/-- A fresh variable. -/
def newVar : StateM State Var := fun σ => (⟨σ.next⟩, { σ with next := σ.next + 1 })

/-- A fresh label. -/
def newLabel : StateM State Label := fun σ => (⟨σ.next⟩, { σ with next := σ.next + 1 })

/-- The word type of indices, `bool` and its constructors, and `Array_array`. -/
structure Target where
  seqIndexSize : ℕ
  bool : Ty
  truee : Con
  falsee : Con
  arrayArray : Prim

variable (T : Target)

/-- `getZeroArrVar`. -/
def getZeroArrVar (ty : Ty) : StateM State Var := do
  match (← get).hs.lookup ty with
  | some zeroArrVar => return zeroArrVar
  | none =>
      let zeroArrVar ← newVar
      modify fun σ =>
        { σ with
          hs := (ty, zeroArrVar) :: σ.hs
          newGlobals := ⟨some zeroArrVar, .array ty, .primApp T.arrayArray [ty] none []⟩ :: σ.newGlobals }
      return zeroArrVar

/-- The allocation of an array that is a variable of `arrVars`: the variable, its type, the type of the elements
and the length. -/
def arrayAlloc? (arrVars : List Var) (s : Statement) : Option (Var × Ty × Ty × Var) :=
  match s.var, s.exp with
  | some var, .primApp (.arrayAlloc false) (eltTy :: _) _ (lenVar :: _) =>
      if var ∈ arrVars then some (var, s.ty, eltTy, lenVar) else none
  | _, _ => none

/-- `splitStmts`. -/
def splitStmts (arrVars : List Var) :
    List Statement → Option (List Statement × (Var × Ty × Ty × Var) × List Statement)
  | [] => none
  | s :: stmts =>
      match arrayAlloc? arrVars s with
      | some arr => some ([], arr, stmts)
      | none => (splitStmts arrVars stmts).map fun (preStmts, arr, postStmts) => (s :: preStmts, arr, postStmts)

theorem splitStmts_length_lt {arrVars : List Var} : ∀ {stmts pre post : List Statement} {arr : Var × Ty × Ty × Var},
    splitStmts arrVars stmts = some (pre, arr, post) → post.length < stmts.length
  | s :: stmts, pre, post, arr, h => by
    rw [splitStmts] at h
    split at h
    · cases h
      exact Nat.lt_succ_self _
    · obtain ⟨⟨pre', arr', post'⟩, hsplit, heq⟩ := Option.map_eq_some_iff.mp h
      cases heq
      exact (splitStmts_length_lt hsplit).trans (Nat.lt_succ_self _)

/-- The names that a block is split with. -/
structure Names where
  ifZeroLab : Label
  ifNonZeroLab : Label
  joinLab : Label
  isZeroVar : Var
  zeroArrVar : Var
  arrVar' : Var

/-- The names, in the order they are made. -/
def newNames (eltTy : Ty) : StateM State Names := do
  let ifZeroLab ← newLabel
  let ifNonZeroLab ← newLabel
  let joinLab ← newLabel
  let isZeroVar ← newVar
  let zeroArrVar ← getZeroArrVar T eltTy
  let arrVar' ← newVar
  return ⟨ifZeroLab, ifNonZeroLab, joinLab, isZeroVar, zeroArrVar, arrVar'⟩

/-- The test of a length. -/
def isZeroStatement (zeroVar lenVar : Var) (n : Names) : Statement :=
  ⟨some n.isZeroVar, T.bool, .primApp (.wordEqual T.seqIndexSize) [] none [zeroVar, lenVar]⟩

/-- The allocation of an array whose length is not zero. -/
def allocStatement (arrTy eltTy : Ty) (lenVar : Var) (n : Names) : Statement :=
  ⟨some n.arrVar', arrTy, .primApp (.arrayAlloc false) [eltTy] none [lenVar]⟩

/-- The block of the statements after the allocation. -/
def joinBlock (b : Block) (arr : Var × Ty × Ty × Var) (post : List Statement) (n : Names) : Block :=
  ⟨[(arr.1, arr.2.1)], n.joinLab, post, b.transfer⟩

/-- The other blocks that `transformBlock` makes of a block that is split: that up to the allocation, and those for
a length that is and is not zero. -/
def transformBlock (zeroVar : Var) (b : Block) (pre : List Statement) (arr : Var × Ty × Ty × Var) (n : Names) :
    List Block :=
  let (_, arrTy, eltTy, lenVar) := arr
  [⟨b.args, b.label, pre ++ [isZeroStatement T zeroVar lenVar n],
      .case n.isZeroVar (.con [(T.truee, n.ifZeroLab), (T.falsee, n.ifNonZeroLab)]) none⟩,
    ⟨[], n.ifZeroLab, [], .goto n.joinLab [n.zeroArrVar]⟩,
    ⟨[], n.ifNonZeroLab, [allocStatement arrTy eltTy lenVar n], .goto n.joinLab [n.arrVar']⟩]

/-- `doBlock`. -/
def doBlock (zeroVar : Var) (arrVars : List Var) (b : Block) : StateM State (List Block) :=
  match _h : splitStmts arrVars b.statements with
  | none => return [b]
  | some (pre, arr, post) => do
      let n ← newNames T arr.2.2.1
      return transformBlock T zeroVar b pre arr n ++ (← doBlock zeroVar arrVars (joinBlock b arr post n))
termination_by b.statements.length
decreasing_by exact splitStmts_length_lt ‹_›

/-- The variables that are cast to vectors. -/
def arrVars (f : Function) : List Var :=
  (f.blocks.flatMap (·.statements)).reverse.filterMap fun s =>
    match s.exp with
    | .primApp .arrayToVector _ _ args => args.head?
    | _ => none

/-- The blocks of a function, one after the other. -/
def doBlocks (zeroVar : Var) (arrVars : List Var) : List Block → StateM State (List Block)
  | [] => return []
  | b :: bs => do return (← doBlock T zeroVar arrVars b) ++ (← doBlocks zeroVar arrVars bs)

/-- What is made of a function. -/
def doFunction (zeroVar : Var) (f : Function) : StateM State Function :=
  if (arrVars f).isEmpty then return f
  else do return { f with blocks := ← doBlocks T zeroVar (arrVars f) f.blocks }

/-- The functions, one after the other. -/
def doFunctions (zeroVar : Var) : List Function → StateM State (List Function)
  | [] => return []
  | f :: fs => do return (← doFunction T zeroVar f) :: (← doFunctions zeroVar fs)

/-- The first global that is the zero of the type of indices. -/
def zeroVar? (globals : List Statement) : Option Var :=
  globals.findSome? fun s =>
    match s.var, s.exp with
    | some var, .const (.word _ 0) => if s.ty = .word T.seqIndexSize then some var else none
    | _, _ => none

/-- `transform`. -/
def transform (c : Code) : StateM State Code := do
  let (zeroVar, globals) ←
    match zeroVar? T c.globals with
    | some zeroVar => pure (zeroVar, c.globals)
    | none => do
        let zeroVar ← newVar
        pure (zeroVar, c.globals ++ [⟨some zeroVar, .word T.seqIndexSize, .const (.word T.seqIndexSize 0)⟩])
  let functions ← doFunctions T zeroVar c.functions
  return ⟨globals ++ (← get).newGlobals, functions.reverse⟩

end ShareZeroVec

end MLton.Ssa
