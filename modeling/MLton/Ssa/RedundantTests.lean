import MLton.Atoms.WordBits
import MLton.Ssa.DominatorTree

/-!
# Ssa/RedundantTests — tests whose outcome is known

Comparisons that a case branches on are facts of the blocks it branches to, if these have no other
predecessor, and of the blocks that those dominate.  A statement that compares the same again, or checks an
addition that a fact rules out to overflow, is replaced by a variable that holds the outcome.
-/

namespace MLton.Ssa

/-- `Con.falsee`. -/
def Con.falsee : Con := ⟨0⟩

/-- `Con.truee`. -/
def Con.truee : Con := ⟨1⟩

namespace RedundantTests

open MLton.Atoms.WordX

inductive Rel where
  | eq
  | lt (signed : Bool)
  | le (signed : Bool)
  | ne
deriving DecidableEq, Repr

inductive Oper where
  | const (c : Const)
  | var (x : Var)
deriving DecidableEq, Repr

structure Fact where
  rel : Rel
  lhs : Oper
  rhs : Oper
deriving DecidableEq, Repr

inductive Result where
  | false
  | true
  | unknown
deriving DecidableEq, Repr

namespace Fact

/-- `Fact.negate`. -/
def negate (f : Fact) : Fact where
  rel := match f.rel with
    | .eq => .ne
    | .lt signed => .le signed
    | .le signed => .lt signed
    | .ne => .eq
  lhs := f.rhs
  rhs := f.lhs

/-- `Fact.determine`. -/
def determine (facts : List Fact) (f : Fact) : Result :=
  if f ∈ facts then .true
  else if f.negate ∈ facts then .false
  else .unknown

end Fact

/-! ## What is known of variables -/

inductive VarInfo where
  | const (c : Const)
  | fact (f : Fact)
  | none
  | or (f f' : Fact)
deriving DecidableEq, Repr

/-- The variables whose information is set. -/
abbrev VarInfos := Var → Option VarInfo

namespace VarInfos

/-- `varInfo`. -/
def get (v : VarInfos) (x : Var) : VarInfo := (v x).getD .none

/-- `setVarInfo`, of `Property.getSetOnce`: it raises when the information is set already. -/
def set (v : VarInfos) (x : Var) (i : VarInfo) : Option VarInfos :=
  if (v x).isNone then some (Function.update v x (some i)) else Option.none

/-- The operand that an argument is. -/
def arg (v : VarInfos) (x : Var) : Oper :=
  match v.get x with
  | .const c => .const c
  | _ => .var x

/-- `makeVarInfo`; it raises where a comparison lacks its arguments. -/
def make (v : VarInfos) (prim : Prim) (args : List Var) : Option VarInfo :=
  let doit (rel : Rel) : Option VarInfo := do
    pure (.fact ⟨rel, v.arg (← args[0]?), v.arg (← args[1]?)⟩)
  match prim with
  | .mltonEq => doit .eq
  | .wordEqual _ => doit .eq
  | .wordLt _ signed => doit (.lt signed)
  | _ => some .none

/-- What a global sets. -/
def addGlobal (v : VarInfos) (s : Statement) : Option VarInfos :=
  match s.exp, s.var with
  | .const c, some x => v.set x (.const c)
  | _, _ => some v

/-- What a statement of a block sets. -/
def addStatement (v : VarInfos) (s : Statement) : Option VarInfos :=
  match s.exp, s.var with
  | .const c, some x => v.set x (.const c)
  | .primApp prim _ _ args, some x => (v.make prim args).bind (v.set x)
  | _, _ => some v

end VarInfos

/-! ## What is known in blocks -/

section Facts

variable (f : Function)

/-- `inDeg`: how often the transfers of the function mention a label; the start is mentioned once more. -/
def inDeg (l : Label) : ℕ := (f.start :: f.blocks.flatMap fun b => b.transfer.labels).count l

/-- `falseTrue`: where a case goes that is on false, and where it goes that is on true. -/
def falseTrue : Cases → Option Label → Option (Label × Label)
  | .con [(c, l)], some l' => some (if c = Con.truee then (l', l) else (l, l'))
  | .con [(c, l), (_, l')], _ => some (if c = Con.truee then (l', l) else (l, l'))
  | _, _ => none

/-- `add`. -/
def addFact (facts : Label → List Fact) (l : Label) (fact : Fact) : Label → List Fact :=
  if inDeg f l = 1 then Function.update facts l (fact :: facts l) else facts

/-- The facts that a transfer adds. -/
def addFacts (v : VarInfos) (facts : Label → List Fact) : Transfer → Option (Label → List Fact)
  | .case test cases default =>
    match v.get test with
    | .fact fact => do
      let (l, l') ← falseTrue cases default
      pure (addFact f (addFact f facts l fact.negate) l' fact)
    | .or fact fact' => do
      let (l, _) ← falseTrue cases default
      pure (addFact f (addFact f facts l fact.negate) l fact'.negate)
    | _ => some facts
  | _ => some facts

/-- What the analysis has found out: of variables, and the `facts` and the `ancestor` of labels. -/
structure Info where
  varInfo : VarInfos
  facts : Label → List Fact
  ancestor : Label → Option Label

mutual

/-- The `loop` of the analysis. -/
def loop : Tree Label → Option Label → Info → Option Info
  | .node label children, ancestor, s => do
    let b ← f.block? label
    let varInfo ← b.statements.foldlM VarInfos.addStatement s.varInfo
    let facts ← addFacts f varInfo s.facts b.transfer
    loops children (if facts label = [] then ancestor else some label)
      { varInfo, facts, ancestor := Function.update s.ancestor label ancestor }

def loops : List (Tree Label) → Option Label → Info → Option Info
  | [], _, s => some s
  | t :: ts, ancestor, s => (loop t ancestor s).bind (loops ts ancestor)

end

/-- The analysis of a function. -/
def analyze (v : VarInfos) : Option Info := do
  loop f (← f.dominatorTree) none { varInfo := v, facts := fun _ => [], ancestor := fun _ => none }

end Facts

/-! ## The transformation -/

namespace Info

variable (s : Info)

/-- `List.exists`, with a test that may raise. -/
def existsFact (p : Fact → Option Bool) : List Fact → Option Bool
  | [] => some false
  | fact :: facts => do if ← p fact then pure true else existsFact p facts

/-- `isFact`.  The number bounds the ancestors it goes through. -/
def isFact (p : Fact → Option Bool) : ℕ → Label → Option Bool
  | 0, _ => none
  | n + 1, l => do
    if ← existsFact p (s.facts l) then pure true
    else match s.ancestor l with
      | none => pure false
      | some l => isFact p n l

/-- `determine`. -/
def determine (f : Fact) : ℕ → Label → Option Result
  | 0, _ => none
  | n + 1, l =>
    match Fact.determine (s.facts l) f with
    | .unknown =>
      match s.ancestor l with
      | none => some .unknown
      | some l => determine f n l
    | r => some r

end Info

/-- `WordX.isOne`. -/
def isOne (value : ℕ) : Bool := value = 1

/-- `WordX.isNegOne`. -/
def isNegOne (size value : ℕ) : Bool := (BitVec.ofNat size value).toInt = -1

/-- `WordX.lt`, of a word and one of size `s`; it raises on another size. -/
def ltWord (size value : ℕ) {s : ℕ} (w : BitVec s) (signed : Bool) : Option Bool :=
  if size = s then some (ltBits signed (.ofNat s value) w) else none

/-- `WordX.gt`, of a word and one of size `s`; it raises on another size. -/
def gtWord (size value : ℕ) {s : ℕ} (w : BitVec s) (signed : Bool) : Option Bool :=
  if size = s then some (ltBits signed w (.ofNat s value)) else none

section Transform

variable (trueVar falseVar : Var) (s : Info) (n : ℕ) (label : Label)

/-- The test of `add1Eligible`. -/
def add1Fact (x : Var) (size : ℕ) (signed : Bool) : Fact → Option Bool
  | ⟨.lt signed', .var x', _⟩ => some (x = x' && signed = signed')
  | ⟨.le signed', .var x', .const c⟩ =>
    if x = x' ∧ signed = signed' then
      match c with
      | .word size' value => ltWord size' value (maxBits signed size) signed
      | _ => none
    else some false
  | _ => some false

/-- The test of `sub1Eligible`. -/
def sub1Fact (x : Var) (size : ℕ) (signed : Bool) : Fact → Option Bool
  | ⟨.lt signed', _, .var x'⟩ => some (x = x' && signed = signed')
  | ⟨.le signed', .const c, .var x'⟩ =>
    if x = x' ∧ signed = signed' then
      match c with
      | .word size' value => gtWord size' value (minBits signed size) signed
      | _ => none
    else some false
  | _ => some false

/-- The outcome of a test, if it is known. -/
abbrev Outcome := Option Bool

/-- `add1`: whether the check is known to fail. -/
def add1 (x : Var) (size : ℕ) (signed : Bool) : Option Outcome := do
  if ← s.isFact (add1Fact x size signed) n label then pure (some false) else pure none

/-- `sub1`. -/
def sub1 (x : Var) (size : ℕ) (signed : Bool) : Option Outcome := do
  if ← s.isFact (sub1Fact x size signed) n label then pure (some false) else pure none

/-- `add`: of a constant to a variable. -/
def add (c : Const) (x : Var) (size : ℕ) (signed : Bool) : Option Outcome :=
  match c with
  | .word size' value =>
    if isOne value then add1 s n label x size signed
    else if signed && isNegOne size' value then sub1 s n label x size signed
    else some none
  | _ => none

/-- `checkPrimApp`. -/
def checkPrimApp (args : List Var) : Prim → Option Outcome
  | .wordAddCheckP size signed => do
    let x₁ ← args[0]?
    let x₂ ← args[1]?
    match s.varInfo.get x₁ with
    | .const c => add s n label c x₂ size signed
    | _ => match s.varInfo.get x₂ with
      | .const c => add s n label c x₁ size signed
      | _ => pure none
  | .wordSubCheckP size signed => do
    let x₁ ← args[0]?
    let x₂ ← args[1]?
    match s.varInfo.get x₂ with
    | .const c =>
      match c with
      | .word size' value =>
        if isOne value then sub1 s n label x₁ size signed
        else if signed && isNegOne size' value then add1 s n label x₁ size signed
        else pure none
      | _ => none
    | _ => pure none
  | _ => some none

/-- What is known of the outcome of a statement that binds `x`. -/
def outcome (x : Var) (exp : Exp) : Option Outcome :=
  match s.varInfo.get x with
  | .or f f' => do
    match ← s.determine f n label with
    | .false =>
      match ← s.determine f' n label with
      | .false => pure (some false)
      | .true => pure (some true)
      | .unknown => pure none
    | .true => pure (some true)
    | .unknown => pure none
  | .fact f => do
    match ← s.determine f n label with
    | .false => pure (some false)
    | .true => pure (some true)
    | .unknown => pure none
  | _ =>
    match exp with
    | .primApp prim _ _ args => checkPrimApp s n label args prim
    | _ => pure none

/-- What a statement becomes. -/
def simplifyStatement (st : Statement) : Option Statement :=
  match st.var with
  | none => some st
  | some x => do
    match ← outcome s n label x st.exp with
    | some b => pure { st with exp := .var (if b then trueVar else falseVar) }
    | none => pure st

/-- What a block becomes. -/
def simplifyBlock (b : Block) : Option Block := do
  let statements ← b.statements.mapM (simplifyStatement trueVar falseVar s n b.label)
  pure { b with statements }

/-- `simplifyFunction`, before `shrink`: what the function becomes, and what is known of variables. -/
def simplifyFunction (f : Function) (v : VarInfos) : Option (Function × VarInfos) := do
  let s ← analyze f v
  let blocks ← f.blocks.mapM (simplifyBlock trueVar falseVar s (f.labels.length + 1))
  pure ({ f with blocks }, s.varInfo)

/-- One function after the other. -/
def simplifyFunctions : List Function → VarInfos → Option (List Function)
  | [], _ => some []
  | f :: fs, v => do
    let (f, v) ← simplifyFunction trueVar falseVar f v
    let fs ← simplifyFunctions fs v
    pure (f :: fs)

end Transform

/-- The statement that binds `trueVar` or `falseVar`; the type is that of booleans. -/
def boolStatement (bool : Ty) (x : Var) (c : Con) : Statement := ⟨some x, bool, .conApp c [] .constant⟩

/-- The functions of a program, before `shrink`. -/
def simplifyProgram (trueVar falseVar : Var) (globals : List Statement) (p : Program) :
    Option (List Function) := do
  let v ← globals.foldlM VarInfos.addGlobal fun _ => none
  simplifyFunctions trueVar falseVar p.functions v

/-- `transform`, with `shrinkFunction` for the functions. -/
def transform (shrink : List Statement → Function → Function) (bool : Ty) (globals : List Statement)
    (p : Program) (n : Supply) : Option ((List Statement × Program) × Supply) := do
  let (trueVar, n) := Var.newNoname.run n
  let (falseVar, n) := Var.newNoname.run n
  let functions ← simplifyProgram trueVar falseVar globals p
  let globals := boolStatement bool trueVar Con.truee :: boolStatement bool falseVar Con.falsee :: globals
  pure ((globals, { p with functions := (functions.map (shrink globals)).reverse }), n)

end RedundantTests

end MLton.Ssa
