import MLton.IntInf.Format

/-!
# Basis/FixedNum — integers and words of a fixed size, and their text

An integer of a size is one of its range, and the operations on it raise if their result is not; a word is a number
below a power of two, and the operations on it wrap.  `fmt` writes the digits from the end of a buffer, of an integer
those of the negative of its magnitude; `scan` gathers them, of an integer again as a negative number, of a word by
multiplying and dividing back.
-/

namespace MLton.FixedNum

open IntInf

/-- `sizeInBits`. -/
inductive Size where
  | bits8
  | bits16
  | bits32
  | bits64
  deriving DecidableEq

/-- The number of bits of a size. -/
def Size.bits : Size → ℕ
  | bits8 => 8
  | bits16 => 16
  | bits32 => 32
  | bits64 => 64

/-- The exceptions that the functions here raise. -/
inductive Exn where
  | overflow
  | div
  | subscript
  deriving DecidableEq

/-! ## Buffers -/

section Buffer

variable {k : ℕ}

/-- `CharArray.update`. -/
def update (buf : Vector Char k) (i : ℤ) (c : Char) : Except Exn (Vector Char k) :=
  if h : 0 ≤ i ∧ i.toNat < k then .ok (buf.set i.toNat c h.2) else .error .subscript

/-- `CharArraySlice.vector` of `CharArraySlice.slice (buf, start, NONE)`. -/
def sliceToEnd (buf : Vector Char k) (start : ℤ) : Except Exn (List Char) :=
  if 0 ≤ start ∧ start.toNat ≤ k then .ok (buf.toList.drop start.toNat) else .error .subscript

/-- `StringCvt.digitToChar`. -/
def digitToChar (n : ℤ) : Except Exn Char :=
  if n < 0 then .error .subscript
  else
    match "0123456789ABCDEF".toList[n.toNat]? with
    | none => .error .subscript
    | some c => .ok c

/-- What an update before the end of a buffer leaves behind it. -/
theorem update_ok {i : ℕ} (buf : Vector Char k) (c : Char) (h : i < k) :
    ∃ buf', update buf i c = .ok buf' ∧ buf'.toList.drop i = c :: buf.toList.drop (i + 1) := by
  refine ⟨buf.set i c h, dif_pos ⟨Int.natCast_nonneg i, h⟩, ?_⟩
  have hlen : i < (buf.toList.set i c).length := by
    rw [List.length_set, Vector.length_toList]
    exact h
  rw [Vector.toList_set, List.drop_eq_getElem_cons hlen, List.getElem_set_self, List.drop_set_of_lt (Nat.lt_succ_self i)]

theorem write_nonneg {x : Except Exn Char} {i : ℤ} {buf buf' : Vector Char k}
    (h : x.bind (update buf i) = .ok buf') : 0 ≤ i := by
  cases x with
  | error e => cases h
  | ok c =>
    simp only [Except.bind, update] at h
    split at h
    · next hi => exact hi.1
    · cases h

theorem sliceToEnd_ok {i : ℕ} (buf : Vector Char k) (h : i ≤ k) : sliceToEnd buf i = .ok (buf.toList.drop i) :=
  if_pos ⟨Int.natCast_nonneg i, h⟩

theorem digitToChar_ok {n : ℕ} (h : n < 16) : digitToChar n = .ok (IntInf.digitToChar n) := by
  interval_cases n <;> rfl

end Buffer

/-! ## Digits -/

theorem toNat_le_sixteen (radix : Radix) : radix.toNat ≤ 16 := by cases radix <;> decide

theorem Size.bits_pos (w : Size) : 0 < w.bits := by cases w <;> decide

end FixedNum

/-! ## Integers -/

namespace FixedInt

open IntInf FixedNum

section Operations

variable (w : Size)

/-- From `minInt` to `maxInt`. -/
def InRange (n : ℤ) : Prop := -2 ^ (w.bits - 1) ≤ n ∧ n < 2 ^ (w.bits - 1)

instance (n : ℤ) : Decidable (InRange w n) := inferInstanceAs (Decidable (_ ∧ _))

/-- The result of an operation whose overflow is detected. -/
def checked (n : ℤ) : Except Exn ℤ := if InRange w n then .ok n else .error .overflow

/-- `schckFromInt`. -/
def fromInt (n : ℤ) : Except Exn ℤ := checked w n

/-- `~!`, which wraps. -/
def negWrap (n : ℤ) : ℤ := Int.bmod (-n) (2 ^ w.bits)

/-- `~`. -/
def neg (n : ℤ) : Except Exn ℤ := checked w (-n)

/-- `*`. -/
def mul (m n : ℤ) : Except Exn ℤ := checked w (m * n)

/-- `-`. -/
def sub (m n : ℤ) : Except Exn ℤ := checked w (m - n)

/-- `quot`. -/
def quot (m n : ℤ) : Except Exn ℤ :=
  if n = 0 then .error .div
  else if m = -2 ^ (w.bits - 1) ∧ n = -1 then .error .overflow
  else .ok (m.tdiv n)

/-- `rem`. -/
def rem (m n : ℤ) : Except Exn ℤ :=
  if n = 0 then .error .div
  else if m = -2 ^ (w.bits - 1) ∧ n = -1 then .ok 0
  else .ok (m.tmod n)

end Operations

section Format

variable (w : Size) {k : ℕ}

/-- The text of a buffer from a digit, or from the sign in front of it. -/
def withSign (n i : ℤ) (buf : Vector Char k) : Except Exn (List Char) :=
  if n < 0 then (update buf (i - 1) '~').bind fun buf => sliceToEnd buf (i - 1)
  else sliceToEnd buf i

/-- The digit that the `loop` of `fmt` writes. -/
def digitOf (radix q : ℤ) : Except Exn Char := (rem w q radix).bind fun r => digitToChar (negWrap w r)

/-- The `loop` of `fmt`. -/
def fmtLoop (n radix q i : ℤ) (buf : Vector Char k) : Except Exn (List Char) :=
  match _h : (digitOf w radix q).bind (update buf i) with
  | .error e => .error e
  | .ok buf =>
      match quot w q radix with
      | .error e => .error e
      | .ok q => if q = 0 then withSign n i buf else fmtLoop n radix q (i - 1) buf
termination_by (i + 1).toNat
decreasing_by
  have hi := write_nonneg _h
  omega

/-- `maxNumDigits`. -/
def maxNumDigits : ℕ := w.bits + 1

/-- `fmt`, with the buffer that it is given. -/
def fmt (radix : Radix) (n : ℤ) (buf : Vector Char (maxNumDigits w)) : Except Exn (List Char) :=
  (fromInt w radix.toNat).bind fun radix =>
    fmtLoop w n radix (if n < 0 then n else negWrap w n) (maxNumDigits w - 1) buf

end Format

section Scan

variable (w : Size) (radix : Radix) {α : Type} {size : α → ℕ} (reader : Reader size Char)

/-- `charToDigit`. -/
def charToDigit (c : Char) : Except Exn (Option ℤ) :=
  match radix.dig c with
  | none => .ok none
  | some n => (fromInt w n).map some

/-- `n * radixInt - n'`. -/
def accumulate (radixInt n n' : ℤ) : Except Exn ℤ := (mul w n radixInt).bind fun product => sub w product n'

/-- `finishNum`. -/
def finishNum (radixInt : ℤ) (s : α) (n : ℤ) : Except Exn (Option (ℤ × α)) :=
  match _h : reader.read s with
  | none => .ok (some (n, s))
  | some (c, s') =>
      (charToDigit w radix c).bind fun
        | none => .ok (some (n, s))
        | some n' => (accumulate w radixInt n n').bind fun n => finishNum radixInt s' n
termination_by size s
decreasing_by exact reader.size_lt ‹_›

/-- The number from a character on, or else an answer. -/
def digitsFrom (radixInt : ℤ) (c : Char) (s : α) (res : Option (ℤ × α)) : Except Exn (Option (ℤ × α)) :=
  (charToDigit w radix c).bind fun
    | none => .ok res
    | some n => finishNum w radix reader radixInt s (negWrap w n)

/-- `num`. -/
def num (radixInt : ℤ) (s : α) : Except Exn (Option (ℤ × α)) :=
  match reader.read s with
  | none => .ok none
  | some (c, s) =>
      if c = '0' ∧ radix = .hex then
        match reader.read s with
        | none => .ok (some (0, s))
        | some (c, s') =>
            if c = 'x' ∨ c = 'X' then
              match reader.read s' with
              | none => .ok (some (0, s))
              | some (c, s') => digitsFrom w radix reader radixInt c s' (some (0, s))
            else digitsFrom w radix reader radixInt c s' (some (0, s))
      else digitsFrom w radix reader radixInt c s none

/-- `negate`. -/
def negate (radixInt : ℤ) (s : α) : Except Exn (Option (ℤ × α)) :=
  (num w radix reader radixInt s).bind fun
    | none => .ok none
    | some (n, s) => (neg w n).map fun n => some (n, s)

/-- `scan`. -/
def scan (s : α) : Except Exn (Option (ℤ × α)) :=
  let s := skipWS reader s
  (fromInt w radix.toNat).bind fun radixInt =>
    match reader.read s with
    | none => .ok none
    | some (c, s') =>
        if c = '~' then num w radix reader radixInt s'
        else if c = '-' then num w radix reader radixInt s'
        else if c = '+' then negate w radix reader radixInt s'
        else negate w radix reader radixInt s

end Scan

end FixedInt

/-! ## Words -/

namespace FixedWord

open IntInf FixedNum

section Operations

variable (w : Size)

/-- `sextdFromInt`. -/
def fromInt (n : ℕ) : ℕ := n % 2 ^ w.bits

/-- `*`, which wraps. -/
def mul (m n : ℕ) : ℕ := m * n % 2 ^ w.bits

/-- `+`, which wraps. -/
def add (m n : ℕ) : ℕ := (m + n) % 2 ^ w.bits

/-- `div`. -/
def div (m n : ℕ) : Except Exn ℕ := if n = 0 then .error .div else .ok (m / n)

/-- `mod`. -/
def mod (m n : ℕ) : Except Exn ℕ := if n = 0 then .error .div else .ok (m % n)

end Operations

section Format

variable {k : ℕ}

/-- The digit that the `loop` of `fmt` writes. -/
def digitOf (radix q : ℕ) : Except Exn Char := (mod q radix).bind fun r => digitToChar r

/-- The `loop` of `fmt`. -/
def fmtLoop (radix q : ℕ) (i : ℤ) (buf : Vector Char k) : Except Exn (List Char) :=
  match _h : (digitOf radix q).bind (update buf i) with
  | .error e => .error e
  | .ok buf =>
      match div q radix with
      | .error e => .error e
      | .ok q => if q = 0 then sliceToEnd buf i else fmtLoop radix q (i - 1) buf
termination_by (i + 1).toNat
decreasing_by
  have hi := write_nonneg _h
  omega

variable (w : Size)

/-- `maxNumDigits`. -/
def maxNumDigits : ℕ := w.bits

/-- `fmt`, with the buffer that it is given. -/
def fmt (radix : Radix) (n : ℕ) (buf : Vector Char (maxNumDigits w)) : Except Exn (List Char) :=
  fmtLoop (fromInt w radix.toNat) n (maxNumDigits w - 1) buf

end Format

section Scan

variable (w : Size) (radix : Radix) {α : Type} {size : α → ℕ} (reader : Reader size Char)

/-- A number and its next digit, by multiplying and dividing back. -/
def accumulate (radixWord n n' : ℕ) : Except Exn ℕ :=
  let product := mul w n radixWord
  (div product radixWord).bind fun q =>
    if q = n then
      let sum := add w product (fromInt w n')
      if product ≤ sum then .ok sum else .error .overflow
    else .error .overflow

/-- `finishNum`. -/
def finishNum (radixWord : ℕ) (state : α) (n : ℕ) : Except Exn (Option (ℕ × α)) :=
  match _h : reader.read state with
  | none => .ok (some (n, state))
  | some (c, state') =>
      match radix.dig c with
      | none => .ok (some (n, state))
      | some n' => (accumulate w radixWord n n').bind fun n => finishNum radixWord state' n
termination_by size state
decreasing_by exact reader.size_lt ‹_›

/-- `startNumWith`. -/
def startNumWith (radixWord : ℕ) (c : Char) (state : α) : Except Exn (Option (ℕ × α)) :=
  match radix.dig c with
  | none => .ok none
  | some n => finishNum w radix reader radixWord state (fromInt w n)

/-- `startNum`. -/
def startNum (radixWord : ℕ) (state : α) : Except Exn (Option (ℕ × α)) :=
  match reader.read state with
  | none => .ok none
  | some (c, state') => startNumWith w radix reader radixWord c state'

/-- `res` if there is no number. -/
def orElse (num : Except Exn (Option (ℕ × α))) (res : Option (ℕ × α)) : Except Exn (Option (ℕ × α)) :=
  num.map fun x => x.or res

/-- `startNumOr`. -/
def startNumOr (radixWord : ℕ) (state : α) (res : Option (ℕ × α)) : Except Exn (Option (ℕ × α)) :=
  orElse (startNum w radix reader radixWord state) res

/-- `startNumWithOr`. -/
def startNumWithOr (radixWord : ℕ) (c : Char) (state : α) (res : Option (ℕ × α)) : Except Exn (Option (ℕ × α)) :=
  orElse (startNumWith w radix reader radixWord c state) res

/-- `scan`. -/
def scan (state : α) : Except Exn (Option (ℕ × α)) :=
  let state0 := skipWS reader state
  let radixWord := fromInt w radix.toNat
  match reader.read state0 with
  | none => .ok none
  | some (c, state1) =>
      if c = '0' then
        let zero := some (0, state1)
        match reader.read state1 with
        | none => .ok zero
        | some (c, state2) =>
            if c = 'w' then
              if radix = .hex then
                match reader.read state2 with
                | none => .ok zero
                | some (c, state3) =>
                    if c = 'x' then startNumOr w radix reader radixWord state3 zero
                    else if c = 'X' then startNumOr w radix reader radixWord state3 zero
                    else .ok zero
              else startNumOr w radix reader radixWord state2 zero
            else if c = 'x' then
              if radix = .hex then startNumOr w radix reader radixWord state2 zero else .ok zero
            else if c = 'X' then
              if radix = .hex then startNumOr w radix reader radixWord state2 zero else .ok zero
            else startNumWithOr w radix reader radixWord c state2 zero
      else startNumWith w radix reader radixWord c state1

end Scan

end FixedWord

end MLton
