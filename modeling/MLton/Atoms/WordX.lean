import Mathlib.Data.Int.Bitwise
import Mathlib.Tactic.NormNum
import Mathlib.Tactic.Positivity
import Mathlib.Tactic.Ring

/-!
# Atoms/WordX — word constants, as unbounded integers reduced modulo `2 ^ bits`

`WordX` keeps a word as the integer in `[0, 2 ^ bits)` and computes on integers; only `make` reduces.
An operation on words of two sizes is a bug of the compiler, and division can raise `Div`, so these are
`Except`.
-/

namespace MLton.Atoms

/-- What a primitive's folding can raise. -/
inductive Exn where
  | chr
  | div
  | overflow
  | subscript
  | bug (message : String)
deriving DecidableEq, Repr

/-- A word size.  `WordSize.all` goes from 1 to 64; all that the folding needs is that a width is positive
and a possible shift count. -/
structure WordSize where
  bits : ℕ
  bits_pos : 0 < bits
  bits_lt : bits < 2 ^ 32
deriving DecidableEq, Repr

namespace WordSize

def compareRes : WordSize := ⟨32, by norm_num, by norm_num⟩

def word8 : WordSize := ⟨8, by norm_num, by norm_num⟩

def word64 : WordSize := ⟨64, by norm_num, by norm_num⟩

def shiftArg : WordSize := ⟨32, by norm_num, by norm_num⟩

def cardinality (s : WordSize) : ℤ := (1 : ℤ) <<< s.bits

/-- The least and the greatest value. -/
def range (s : WordSize) (signed : Bool) : ℤ × ℤ :=
  if signed then
    let pow := (1 : ℤ) <<< (s.bits - 1)
    (-pow, pow - 1)
  else (0, s.cardinality - 1)

def min (s : WordSize) (signed : Bool) : ℤ := (s.range signed).1

def max (s : WordSize) (signed : Bool) : ℤ := (s.range signed).2

def isInRange (s : WordSize) (i : ℤ) (signed : Bool) : Bool :=
  s.min signed ≤ i && i ≤ s.max signed

end WordSize

/-- A word constant. -/
structure WordX where
  size : WordSize
  value : ℤ
  value_nonneg : 0 ≤ value
  value_lt : value < 2 ^ size.bits
deriving DecidableEq

namespace WordX

def modulus (s : WordSize) : ℤ := (1 : ℤ) <<< s.bits

theorem modulus_eq (s : WordSize) : modulus s = 2 ^ s.bits := by
  rw [modulus, Int.shiftLeft_eq, one_mul]

theorem modulus_pos (s : WordSize) : 0 < modulus s := modulus_eq s ▸ by positivity

/-- `WordX.fromIntInf` too. -/
def make (i : ℤ) (s : WordSize) : WordX where
  size := s
  value := i % modulus s
  value_nonneg := Int.emod_nonneg _ (modulus_pos s).ne'
  value_lt := modulus_eq s ▸ Int.emod_lt_of_pos _ (modulus_pos s)

def toIntInf (w : WordX) : ℤ := w.value

def toIntInfX (w : WordX) : ℤ :=
  let v := w.value
  let m := modulus w.size
  if m / 2 ≤ v then v - m else v

def toIntInfSg (w : WordX) (signed : Bool) : ℤ := if signed then w.toIntInfX else w.toIntInf

def zero (s : WordSize) : WordX := make 0 s

def one (s : WordSize) : WordX := make 1 s

def fromBits (b : ℕ) (s : WordSize) : WordX := make b s

/-! ## Shifts -/

/-- `WordX.lshift` and `>>` give zero from a count of the width on; below it the count is a host word. -/
def makeShift (f : ℤ → ℕ → ℤ) (w w' : WordX) : WordX :=
  if (w.size.bits : ℤ) ≤ w'.value then zero w.size else make (f w.value w'.value.toNat) w.size

def lshift : WordX → WordX → WordX := makeShift (· <<< ·)

/-- The source's `>>`. -/
def lrshift : WordX → WordX → WordX := makeShift (· >>> ·)

/-- The source's `~>>`. -/
def arshift (w w' : WordX) : WordX :=
  let shift := if (w.size.bits : ℤ) < w'.value then w.size.bits else w'.value.toNat
  make (w.toIntInfX >>> shift) w.size

def rshift (w w' : WordX) (signed : Bool) : WordX := if signed then arshift w w' else lrshift w w'

def swap (i : ℤ) (hi lo : ℕ) : ℤ := (i >>> lo).lor ((i % ((1 : ℤ) <<< lo)) <<< hi)

def rol (w w' : WordX) : WordX :=
  let shift := (w'.value % w.size.bits).toNat
  make (swap w.value shift (w.size.bits - shift)) w.size

def ror (w w' : WordX) : WordX :=
  let shift := (w'.value % w.size.bits).toNat
  make (swap w.value (w.size.bits - shift) shift) w.size

/-! ## Tests -/

def isAllOnes (w : WordX) : Bool := w.value = modulus w.size - 1

def isOne (w : WordX) : Bool := 1 = w.value

def isZero (w : WordX) : Bool := 0 = w.value

def isNegOne (w : WordX) : Bool := -1 = w.toIntInfX

def max (s : WordSize) (signed : Bool) : WordX := make (s.max signed) s

def min (s : WordSize) (signed : Bool) : WordX := make (s.min signed) s

def equals (w w' : WordX) : Bool := w.size = w'.size ∧ w.value = w'.value

def isMax (w : WordX) (signed : Bool) : Bool := w.equals (max w.size signed)

def isMin (w : WordX) (signed : Bool) : Bool := w.equals (min w.size signed)

/-! ## Operations -/

def notb (w : WordX) : WordX := make (Int.lnot w.value) w.size

def neg (w : WordX) : WordX := make (-w.toIntInfX) w.size

def resize (w : WordX) (s : WordSize) : WordX := make w.toIntInf s

def resizeX (w : WordX) (s : WordSize) : WordX := make w.toIntInfX s

def resizeSg (w : WordX) (s : WordSize) (signed : Bool) : WordX :=
  if signed then w.resizeX s else w.resize s

def makeBinary (name : String) (f : ℤ → ℤ → ℤ) (w w' : WordX) : Except Exn WordX :=
  if w.size = w'.size then .ok (make (f w.value w'.value) w.size)
  else .error (.bug ("WordX." ++ name))

def add : WordX → WordX → Except Exn WordX := makeBinary "add" (· + ·)

def sub : WordX → WordX → Except Exn WordX := makeBinary "sub" (· - ·)

def andb : WordX → WordX → Except Exn WordX := makeBinary "andb" Int.land

def orb : WordX → WordX → Except Exn WordX := makeBinary "orb" Int.lor

def xorb : WordX → WordX → Except Exn WordX := makeBinary "xorb" Int.xor

def makeSigned (name : String) (f : ℤ → ℤ → Except Exn ℤ) (w w' : WordX) (signed : Bool) :
    Except Exn WordX :=
  if w.size = w'.size then do
    let i ← f (w.toIntInfSg signed) (w'.toIntInfSg signed)
    return make i w.size
  else .error (.bug ("WordX." ++ name))

end WordX

/-- `IntInf.quot`: towards zero. -/
def IntInf.quot (i j : ℤ) : Except Exn ℤ := if j = 0 then .error .div else .ok (i.tdiv j)

/-- `IntInf.rem`. -/
def IntInf.rem (i j : ℤ) : Except Exn ℤ := if j = 0 then .error .div else .ok (i.tmod j)

namespace WordX

def mul : WordX → WordX → Bool → Except Exn WordX := makeSigned "mul" fun i j => .ok (i * j)

def quot : WordX → WordX → Bool → Except Exn WordX := makeSigned "quot" IntInf.quot

def rem : WordX → WordX → Bool → Except Exn WordX := makeSigned "rem" IntInf.rem

def makeCompare (name : String) (f : ℤ → ℤ → Bool) (w w' : WordX) (signed : Bool) :
    Except Exn Bool :=
  if w.size = w'.size then .ok (f (w.toIntInfSg signed) (w'.toIntInfSg signed))
  else .error (.bug ("WordX." ++ name))

def lt : WordX → WordX → Bool → Except Exn Bool := makeCompare "lt" (· < ·)

def ge : WordX → WordX → Bool → Except Exn Bool := makeCompare "ge" (· ≥ ·)

end WordX

end MLton.Atoms
