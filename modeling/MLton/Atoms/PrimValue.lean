import MLton.Atoms.Prim
import MLton.Atoms.WordBits

/-!
# Atoms/PrimValue — what the primitives compute

`p.value` is the meaning of a primitive, on vectors of bits in two's complement and on the integers; it is
`none` on arguments the primitive is not for, and on a zero divisor.  Shift counts are words of 32 bits.

A result of folding *agrees* with a value if it is `unknown` or evaluates to the value.
-/

namespace MLton.Atoms

/-- The values of variables; those of types the folding does not compute with are only told apart. -/
inductive Value where
  | bool (b : Bool)
  | intInf (i : ℤ)
  | other (id : ℕ)
  | word (s : WordSize) (b : BitVec s.bits)

namespace Value

/-- The bits of a word of size `s`. -/
def bits? (s : WordSize) : Value → Option (BitVec s.bits)
  | word s' b => if h : s' = s then some (h ▸ b) else none
  | _ => none

theorem bits?_word (s : WordSize) (b : BitVec s.bits) : bits? s (word s b) = some b := dif_pos rfl

theorem eq_word_of_bits? {s : WordSize} {b : BitVec s.bits} :
    ∀ {v : Value}, v.bits? s = some b → v = word s b
  | word s' b', h => by
    simp only [bits?] at h
    split_ifs at h with hs
    subst hs
    exact congrArg (word s') (Option.some.inj h)

end Value

open Value WordX

namespace Prim

/-! ## The shapes of primitives -/

def onWord (s : WordSize) (f : BitVec s.bits → Value) : List Value → Option Value
  | [v] => (v.bits? s).map f
  | _ => none

/-- On two words, of sizes `s` and `t`. -/
def onWords (s t : WordSize) (f : BitVec s.bits → BitVec t.bits → Option Value) :
    List Value → Option Value
  | [v, v'] => (v.bits? s).bind fun x => (v'.bits? t).bind (f x)
  | _ => none

/-- On an integer and the space to allocate the result in. -/
def onIntInf (f : ℤ → ℤ) : List Value → Option Value
  | [.intInf i, _] => some (.intInf (f i))
  | _ => none

def onIntInfs (f : ℤ → ℤ → Option ℤ) : List Value → Option Value
  | [.intInf i, .intInf j, _] => (f i j).map .intInf
  | _ => none

def onIntInfShift (f : ℤ → ℕ → ℤ) : List Value → Option Value
  | [.intInf i, v, _] => (v.bits? .shiftArg).map fun c => .intInf (f i c.toNat)
  | _ => none

/-- The order of two integers, as a word. -/
def onCompare : List Value → Option Value
  | [.intInf i, .intInf j] => some (.word .compareRes (if i < j then -1 else if i = j then 0 else 1))
  | _ => none

/-- Equality of words. -/
def onEq : List Value → Option Value
  | [.word s x, v] => (v.bits? s).map fun y => .bool (x = y)
  | _ => none

/-- Equality of words and of integers. -/
def onEqual : List Value → Option Value
  | [.intInf i, .intInf j] => some (.bool (i = j))
  | vs => onEq vs

/-! ## The primitives -/

/-- The value of a primitive on its arguments. -/
def value : Prim → List Value → Option Value
  | intInfAdd => onIntInfs fun i j => some (i + j)
  | intInfAndb => onIntInfs fun i j => some (i.land j)
  | intInfArshift => onIntInfShift fun i c => i / 2 ^ c
  | intInfCompare => onCompare
  | intInfGcd => onIntInfs fun i j => some (i.gcd j)
  | intInfLshift => onIntInfShift fun i c => i * 2 ^ c
  | intInfMul => onIntInfs fun i j => some (i * j)
  | intInfNeg => onIntInf fun i => -i
  | intInfNotb => onIntInf fun i => -i - 1
  | intInfOrb => onIntInfs fun i j => some (i.lor j)
  | intInfQuot => onIntInfs fun i j => if j = 0 then none else some (i.tdiv j)
  | intInfRem => onIntInfs fun i j => if j = 0 then none else some (i.tmod j)
  | intInfSub => onIntInfs fun i j => some (i - j)
  | intInfXorb => onIntInfs fun i j => some (i.xor j)
  | mltonEq => onEq
  | mltonEqual => onEqual
  | wordAdd s => onWords s s fun x y => some (.word s (x + y))
  | wordAddCheckP s sg => onWords s s fun x y => some (.bool (addCheckBits sg x y))
  | wordAndb s => onWords s s fun x y => some (.word s (x &&& y))
  | wordEqual s => onWords s s fun x y => some (.bool (x = y))
  | wordExtdToWord s s' sg => onWord s fun x => .word s' (extdBits sg s'.bits x)
  | wordLshift s => onWords s .shiftArg fun x c => some (.word s (x <<< c.toNat))
  | wordLt s sg => onWords s s fun x y => some (.bool (ltBits sg x y))
  | wordMul s _ => onWords s s fun x y => some (.word s (x * y))
  | wordMulCheckP s sg => onWords s s fun x y => some (.bool (mulCheckBits sg x y))
  | wordNeg s => onWord s fun x => .word s (-x)
  | wordNegCheckP s sg => onWord s fun x => .bool (negCheckBits sg x)
  | wordNotb s => onWord s fun x => .word s (~~~x)
  | wordOrb s => onWords s s fun x y => some (.word s (x ||| y))
  | wordQuot s sg => onWords s s fun x y => if y = 0#_ then none else some (.word s (quotBits sg x y))
  | wordRem s sg => onWords s s fun x y => if y = 0#_ then none else some (.word s (remBits sg x y))
  | wordRol s => onWords s .shiftArg fun x c => some (.word s (x.rotateLeft c.toNat))
  | wordRor s => onWords s .shiftArg fun x c => some (.word s (x.rotateRight c.toNat))
  | wordRshift s sg => onWords s .shiftArg fun x c => some (.word s (rshiftBits sg x c.toNat))
  | wordSub s => onWords s s fun x y => some (.word s (x - y))
  | wordSubCheckP s sg => onWords s s fun x y => some (.bool (subCheckBits sg x y))
  | wordXorb s => onWords s s fun x y => some (.word s (x ^^^ y))
  | _ => fun _ => none

/-- Words of one bit have no one that is not negative. -/
def Wide : Prim → Prop
  | wordMulCheckP s _ => 2 ≤ s.bits
  | _ => True

end Prim

/-! ## Evaluating arguments and results -/

def Const.value : Const → Value
  | intInf i => .intInf i
  | null => .other 0
  | word w => .word w.size (w.bitsAt w.size.bits)

section Evaluation

variable {β : Type} (env : β → Value)

def ApplyArg.value : ApplyArg β → Value
  | con c _ => .other c.id
  | const c => c.value
  | var x => env x

def ApplyResult.value : ApplyResult β → Option Value
  | apply p xs => p.value (xs.map env)
  | bool b => some (.bool b)
  | const c => some c.value
  | unknown => none
  | var x => some (env x)

/-- The result says nothing wrong. -/
def Agrees (r : ApplyResult β) (v : Value) : Prop := r = .unknown ∨ r.value env = some v

/-- The folding does not raise, and its result says nothing wrong. -/
def Folds (e : Except Exn (ApplyResult β)) (v : Value) : Prop := ∃ r, e = .ok r ∧ Agrees env r v

end Evaluation

end MLton.Atoms
