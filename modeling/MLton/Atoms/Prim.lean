import MLton.Atoms
import MLton.Atoms.WordX

/-!
# Atoms/Prim — folding the applications of primitives

`apply` is given a primitive and its arguments, each a constant, a constructor application or a variable,
and says what the application can be replaced by: a constant, a truth value, one of the variables, a
simpler application, or nothing (`unknown`).  Arguments that are all constants are computed (`allConsts`),
where the exceptions of the arithmetic mean `unknown`; otherwise algebraic identities apply (`someVars`).

Of the primitives there are those on words, on integers, on C pointers and the two equalities.
-/

namespace MLton.Atoms

/-- What depends on the machines: the width of the compiler's own `Word.word` and `Int.int`, and the sizes
of the target's pointers and of their differences. -/
structure Platform where
  wordBits : ℕ
  intBits : ℕ
  cpointer : WordSize
  cptrdiff : WordSize
  le_wordBits : 32 ≤ wordBits

namespace Platform

variable (pl : Platform)

/-- `Word.fromIntInf`, as a shift count. -/
def fromIntInf (i : ℤ) : ℕ := (i % 2 ^ pl.wordBits).toNat

/-- `IntInf.toInt`. -/
def toInt (i : ℤ) : Except Exn ℤ :=
  if -2 ^ (pl.intBits - 1) ≤ i ∧ i < 2 ^ (pl.intBits - 1) then .ok i else .error .overflow

end Platform

/-- Primitives. -/
inductive Prim where
  | cpointerAdd
  | cpointerDiff
  | cpointerEqual
  | cpointerFromWord
  | cpointerLt
  | cpointerSub
  | cpointerToWord
  | intInfAdd
  | intInfAndb
  | intInfArshift
  | intInfCompare
  | intInfGcd
  | intInfLshift
  | intInfMul
  | intInfNeg
  | intInfNotb
  | intInfOrb
  | intInfQuot
  | intInfRem
  | intInfSub
  | intInfXorb
  | mltonEq
  | mltonEqual
  | wordAdd (s : WordSize)
  | wordAddCheckP (s : WordSize) (signed : Bool)
  | wordAndb (s : WordSize)
  | wordEqual (s : WordSize)
  | wordExtdToWord (s s' : WordSize) (signed : Bool)
  | wordLshift (s : WordSize)
  | wordLt (s : WordSize) (signed : Bool)
  | wordMul (s : WordSize) (signed : Bool)
  | wordMulCheckP (s : WordSize) (signed : Bool)
  | wordNeg (s : WordSize)
  | wordNegCheckP (s : WordSize) (signed : Bool)
  | wordNotb (s : WordSize)
  | wordOrb (s : WordSize)
  | wordQuot (s : WordSize) (signed : Bool)
  | wordRem (s : WordSize) (signed : Bool)
  | wordRol (s : WordSize)
  | wordRor (s : WordSize)
  | wordRshift (s : WordSize) (signed : Bool)
  | wordSub (s : WordSize)
  | wordSubCheckP (s : WordSize) (signed : Bool)
  | wordXorb (s : WordSize)
deriving DecidableEq

/-- Constants. -/
inductive Const where
  | intInf (i : ℤ)
  | null
  | word (w : WordX)
deriving DecidableEq

/-- What is known of an argument. -/
inductive ApplyArg (β : Type) where
  | con (con : Con) (hasArg : Bool)
  | const (c : Const)
  | var (x : β)
deriving DecidableEq

/-- What an application can be replaced by. -/
inductive ApplyResult (β : Type) where
  | apply (p : Prim) (xs : List β)
  | bool (b : Bool)
  | const (c : Const)
  | unknown
  | var (x : β)
deriving DecidableEq

namespace Prim

variable {β : Type} (pl : Platform)

open ApplyResult

def word (w : WordX) : ApplyResult β := const (.word w)

/-- Integers of more than 128 bits are not folded. -/
def intInfTooBig (i : ℤ) : Bool := i < -((1 : ℤ) <<< (128 : ℕ)) || (1 : ℤ) <<< (128 : ℕ) < i

def intInf (i : ℤ) : ApplyResult β := if intInfTooBig i then unknown else const (.intInf i)

def wordChk (s : WordSize) (i : ℤ) (signed : Bool) : ApplyResult β := bool !s.isInRange i signed

def eq : Const → Const → ApplyResult β
  | .word w1, .word w2 => bool (w1.equals w2)
  | _, _ => unknown

def equal : Const → Const → ApplyResult β
  | .intInf i1, .intInf i2 => bool (i1 = i2)
  | .word w1, .word w2 => bool (w1.equals w2)
  | _, _ => unknown

def intInfBinary (p : Prim) (i1 i2 : ℤ) : Except Exn (ApplyResult β) :=
  if intInfTooBig i1 || intInfTooBig i2 then .ok unknown
  else match p with
    | intInfAdd => .ok (intInf (i1 + i2))
    | intInfAndb => .ok (intInf (i1.land i2))
    | intInfGcd => .ok (intInf (i1.gcd i2))
    | intInfMul => .ok (intInf (i1 * i2))
    | intInfOrb => .ok (intInf (i1.lor i2))
    | intInfQuot => intInf <$> IntInf.quot i1 i2
    | intInfRem => intInf <$> IntInf.rem i1 i2
    | intInfSub => .ok (intInf (i1 - i2))
    | intInfXorb => .ok (intInf (i1.xor i2))
    | _ => .ok unknown

def intInfUnary (p : Prim) (i1 : ℤ) : ApplyResult β :=
  if intInfTooBig i1 then unknown
  else match p with
    | intInfNeg => intInf (-i1)
    | intInfNotb => intInf i1.lnot
    | _ => unknown

/-- `intInfShiftOrToString`, the shifts. -/
def intInfShift (p : Prim) (i1 : ℤ) (w2 : WordX) : Except Exn (ApplyResult β) :=
  if intInfTooBig i1 then .ok unknown
  else match p with
    | intInfArshift => .ok (intInf (i1 >>> pl.fromIntInf w2.toIntInf))
    | intInfLshift => do
      let maxShift := WordX.make 128 .shiftArg
      if ← w2.lt maxShift false then return intInf (i1 <<< pl.fromIntInf w2.toIntInf)
      else return unknown
    | _ => .ok unknown

/-- `Relation.LESS`, `EQUAL` and `GREATER` as integers. -/
def compareInt (i1 i2 : ℤ) : ℤ := if i1 < i2 then -1 else if i1 = i2 then 0 else 1

/-- The handler of `allConsts`: a bug is not handled. -/
def handle : Except Exn (ApplyResult β) → Except Exn (ApplyResult β)
  | .ok r => .ok r
  | .error (.bug message) => .error (.bug message)
  | .error _ => .ok unknown

def allConsts (p : Prim) (cs : List Const) : Except Exn (ApplyResult β) :=
  handle (match p, cs with
    | mltonEq, [c1, c2] => .ok (eq c1 c2)
    | mltonEqual, [c1, c2] => .ok (equal c1 c2)
    | cpointerEqual, [.null, .null] => .ok (bool true)
    | cpointerFromWord, [.word w] => .ok (if w.isZero then const .null else unknown)
    | cpointerToWord, [.null] => .ok (word (.zero pl.cpointer))
    | intInfCompare, [.intInf i1, .intInf i2] => .ok (word (.make (compareInt i1 i2) .compareRes))
    | p, [.intInf i1, .intInf i2, _] => intInfBinary p i1 i2
    | p, [.intInf i1, .word w2, _] => intInfShift pl p i1 w2
    | p, [.intInf i1, _] => .ok (intInfUnary p i1)
    | wordAdd _, [.word w1, .word w2] => word <$> w1.add w2
    | wordAddCheckP s sg, [.word w1, .word w2] =>
      .ok (wordChk s (w1.toIntInfSg sg + w2.toIntInfSg sg) sg)
    | wordAndb _, [.word w1, .word w2] => word <$> w1.andb w2
    | wordEqual _, [.word w1, .word w2] => .ok (bool (w1.equals w2))
    | wordLshift _, [.word w1, .word w2] => .ok (word (w1.lshift w2))
    | wordLt _ sg, [.word w1, .word w2] => bool <$> w1.lt w2 sg
    | wordMul _ sg, [.word w1, .word w2] => word <$> w1.mul w2 sg
    | wordMulCheckP s sg, [.word w1, .word w2] =>
      .ok (wordChk s (w1.toIntInfSg sg * w2.toIntInfSg sg) sg)
    | wordNeg _, [.word w] => .ok (word w.neg)
    | wordNegCheckP s sg, [.word w] => .ok (wordChk s (-w.toIntInfSg sg) sg)
    | wordNotb _, [.word w] => .ok (word w.notb)
    | wordOrb _, [.word w1, .word w2] => word <$> w1.orb w2
    | wordQuot _ sg, [.word w1, .word w2] =>
      if w2.isZero then .ok unknown else word <$> w1.quot w2 sg
    | wordRem _ sg, [.word w1, .word w2] =>
      if w2.isZero then .ok unknown else word <$> w1.rem w2 sg
    | wordRol _, [.word w1, .word w2] => .ok (word (w1.rol w2))
    | wordRor _, [.word w1, .word w2] => .ok (word (w1.ror w2))
    | wordRshift _ sg, [.word w1, .word w2] => .ok (word (w1.rshift w2 sg))
    | wordSub _, [.word w1, .word w2] => word <$> w1.sub w2
    | wordSubCheckP s sg, [.word w1, .word w2] =>
      .ok (wordChk s (w1.toIntInfSg sg - w2.toIntInfSg sg) sg)
    | wordExtdToWord _ s sg, [.word w] => .ok (word (w.resizeSg s sg))
    | wordXorb _, [.word w1, .word w2] => word <$> w1.xorb w2
    | _, _ => .ok unknown)

/-- A variable and an integer that fits `Int.int`; `inOrder` if the variable comes first. -/
def varInt (p : Prim) (x : β) (i : ℤ) (space : β) (inOrder : Bool) : ApplyResult β :=
  let neg := apply intInfNeg [x, space]
  let notb := apply intInfNotb [x, space]
  match p with
  | intInfAdd => if i = 0 then var x else unknown
  | intInfAndb => if i = 0 then intInf 0 else if i = -1 then var x else unknown
  | intInfArshift => if i = 0 then intInf 0 else if i = -1 then intInf (-1) else unknown
  | intInfGcd => if i = -1 ∨ i = 1 then intInf 1 else unknown
  | intInfLshift => if i = 0 then intInf 0 else unknown
  | intInfMul => if i = 0 then intInf 0 else if i = 1 then var x else if i = -1 then neg else unknown
  | intInfOrb => if i = 0 then var x else if i = -1 then intInf (-1) else unknown
  | intInfQuot =>
    if inOrder then if i = 1 then var x else if i = -1 then neg else unknown
    else unknown
  | intInfRem => if inOrder ∧ (i = -1 ∨ i = 1) then intInf 0 else unknown
  | intInfSub => if i = 0 then if inOrder then var x else neg else unknown
  | intInfXorb => if i = 0 then var x else if i = -1 then notb else unknown
  | _ => unknown

def varIntInf (p : Prim) (x : β) (i : ℤ) (space : β) (inOrder : Bool) : ApplyResult β :=
  match pl.toInt i with
  | .ok i => varInt p x i space inOrder
  | .error _ => unknown

/-- A rotation with a constant. -/
def ro (s : WordSize) (x : β) (w : WordX) (inOrder : Bool) : Except Exn (ApplyResult β) :=
  if inOrder then do
    let r ← w.rem (.fromBits s.bits w.size) false
    if r.isZero then return var x else return unknown
  else if w.isZero || w.isAllOnes then .ok (word w)
  else .ok unknown

/-- A shift with a constant. -/
def shift (s : WordSize) (x : β) (w : WordX) (inOrder : Bool) : Except Exn (ApplyResult β) :=
  if inOrder then
    if w.isZero then .ok (var x)
    else do
      if ← w.ge (.fromBits s.bits .shiftArg) false then return word (.zero s)
      else return unknown
  else if w.isZero then .ok (word (.zero s))
  else .ok unknown

/-- A variable and a word; `inOrder` if the variable comes first. -/
def varWord (p : Prim) (x : β) (w : WordX) (inOrder : Bool) : Except Exn (ApplyResult β) :=
  match p with
  | cpointerAdd => .ok (if w.isZero then var x else unknown)
  | cpointerSub => .ok (if w.isZero && inOrder then var x else unknown)
  | wordAdd _ => .ok (if w.isZero then var x else unknown)
  | wordAddCheckP _ _ => .ok (if w.isZero then bool false else unknown)
  | wordAndb s => .ok (if w.isZero then word (.zero s) else if w.isAllOnes then var x else unknown)
  | wordLshift s => shift s x w inOrder
  | wordLt _ sg =>
    .ok (if inOrder then if w.isMin sg then bool false else unknown
      else if w.isMax sg then bool false else unknown)
  | wordMul s signed =>
    .ok (if w.isZero then word (.zero s) else if w.isOne then var x
      else if signed && w.isNegOne then apply (wordNeg s) [x] else unknown)
  | wordMulCheckP _ _ => .ok (if w.isZero || w.isOne then bool false else unknown)
  | wordOrb _ => .ok (if w.isZero then var x else if w.isAllOnes then word w else unknown)
  | wordQuot s signed =>
    .ok (if inOrder then
        if w.isOne then var x
        else if signed && w.isNegOne then apply (wordNeg s) [x] else unknown
      else unknown)
  | wordRem s signed =>
    .ok (if inOrder && (w.isOne || signed && w.isNegOne) then word (.zero s) else unknown)
  | wordRol s => ro s x w inOrder
  | wordRor s => ro s x w inOrder
  | wordRshift s signed =>
    if signed then
      .ok (if w.isZero then if inOrder then var x else word (.zero s)
        else if w.isAllOnes && !inOrder then word w else unknown)
    else shift s x w inOrder
  | wordSub s =>
    .ok (if w.isZero then if inOrder then var x else apply (wordNeg s) [x] else unknown)
  | wordSubCheckP _ _ => .ok (if w.isZero && inOrder then bool false else unknown)
  | wordXorb s =>
    .ok (if w.isZero then var x else if w.isAllOnes then apply (wordNotb s) [x] else unknown)
  | _ => .ok unknown

/-- An integer variable and the word zero. -/
def byZero (p : Prim) (x : β) : ApplyResult β :=
  match p with
  | intInfArshift => var x
  | intInfLshift => var x
  | _ => unknown

/-- One integer variable twice. -/
def sameIntInf (p : Prim) (x : β) : ApplyResult β :=
  match p with
  | intInfAndb => var x
  | intInfOrb => var x
  | intInfQuot => intInf 1
  | intInfRem => intInf 0
  | intInfSub => intInf 0
  | intInfXorb => intInf 0
  | _ => unknown

/-- One variable twice. -/
def sameVar (p : Prim) (x : β) : ApplyResult β :=
  match p with
  | cpointerDiff => word (.zero pl.cptrdiff)
  | cpointerEqual => bool true
  | cpointerLt => bool false
  | intInfCompare => word (.zero .compareRes)
  | mltonEq => bool true
  | mltonEqual => bool true
  | wordAndb _ => var x
  | wordEqual _ => bool true
  | wordLt _ _ => bool false
  | wordOrb _ => var x
  | wordQuot s _ => word (.one s)
  | wordRem s _ => word (.zero s)
  | wordSub s => word (.zero s)
  | wordSubCheckP _ _ => bool false
  | wordXorb s => word (.zero s)
  | _ => unknown

def someVars (varEquals : β → β → Bool) (p : Prim) :
    List (ApplyArg β) → Except Exn (ApplyResult β)
  | [.con c h, .con c' _] =>
    .ok (if p = mltonEq ∨ p = mltonEqual then
        if c = c' then if h then unknown else bool true else bool false
      else unknown)
  | [.var x, .const (.word i)] => varWord p x i true
  | [.const (.word i), .var x] => varWord p x i false
  | [.const (.intInf i1), .const (.intInf i2), _] => intInfBinary p i1 i2
  | [.const (.intInf i1), .const (.word w2), _] => intInfShift pl p i1 w2
  | [.const (.intInf i1), _] => .ok (intInfUnary p i1)
  | [.var x, .const (.intInf i), .var space] => .ok (varIntInf pl p x i space true)
  | [.const (.intInf i), .var x, .var space] => .ok (varIntInf pl p x i space false)
  | [.var x, .const (.word w), _] =>
    .ok (if w.isZero then byZero p x else unknown)
  | [.var x, .var y, _] => .ok (if varEquals x y then sameIntInf p x else unknown)
  | [.var x, .var y] => .ok (if varEquals x y then sameVar pl p x else unknown)
  | _ => .ok unknown

/-- The constant that an argument is. -/
def constOf : ApplyArg β → Option Const
  | .const c => some c
  | _ => none

/-- `Prim.apply`. -/
def apply (varEquals : β → β → Bool) (p : Prim) (args : List (ApplyArg β)) :
    Except Exn (ApplyResult β) :=
  match args.mapM constOf with
  | some cs => allConsts pl p cs
  | none => someVars pl varEquals p args

end Prim

end MLton.Atoms
