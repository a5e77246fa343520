import MLton.IntInf.Format

/-!
# Basis/CharScan — the escapes of characters, written and read

`toString` and `toCString` write a character as the text of an escape, `scan` and `scanC` read one from the
front of a text.  The readers of numbers compute with the default integers, whose overflow is checked; the
structures differ in how many characters they have.
-/

namespace MLton.CharFn

open IntInf

/-- The exceptions that the functions here raise. -/
inductive Exn where
  | overflow
  | fail (message : String)
  deriving DecidableEq

/-! ## Structures -/

/-- `PreChar`, the argument of the functor. -/
inductive PreChar where
  | char8
  | char16
  | char32
  deriving DecidableEq

/-- `numChars`. -/
def PreChar.numChars : PreChar → ℕ
  | char8 => 256
  | char16 => 65536
  | char32 => 1114112

theorem PreChar.le_numChars : ∀ C : PreChar, 256 ≤ C.numChars
  | char8 => le_refl _
  | char16 => by decide
  | char32 => by decide

/-- The characters of a structure, by their codes. -/
abbrev PreChar.Chr (C : PreChar) : Type := Fin C.numChars

/-- The integers that `int` is. -/
inductive DefaultInt where
  | int32
  | int64
  | intInf
  deriving DecidableEq

/-- `maxInt`. -/
def DefaultInt.maxInt : DefaultInt → Option ℕ
  | int32 => some (2 ^ 31 - 1)
  | int64 => some (2 ^ 63 - 1)
  | intInf => none

/-- The naturals that are an `int`. -/
def DefaultInt.Fits (I : DefaultInt) (n : ℕ) : Prop := ∀ m ∈ I.maxInt, n ≤ m

instance (I : DefaultInt) (n : ℕ) : Decidable (I.Fits n) :=
  inferInstanceAs (Decidable (∀ m ∈ I.maxInt, n ≤ m))

/-- The result of an operation on `int`s, which is checked. -/
def DefaultInt.checked (I : DefaultInt) (n : ℕ) : Except Exn ℕ :=
  if I.Fits n then .ok n else .error .overflow

/-! ## Numbers

`readDigits` and its kin read a text as `StringCvt` does from the reader of a list of characters. -/

/-- What a reader answers: nothing, or what it read and the text after it. -/
abbrev Answer (α : Type) : Type := Except Exn (Option (α × List Char))

section StringCvt

variable (I : DefaultInt) (radix : Radix)

/-- `n + accum * r`. -/
def accumulate (n accum : ℕ) : Except Exn ℕ := do
  let product ← I.checked (accum * radix.toNat)
  I.checked (n + product)

/-- The `loop` of `digitsExact`. -/
def digitsExactLoop : ℕ → ℕ → List Char → Answer ℕ
  | 0, accum, s => .ok (some (accum, s))
  | _ + 1, _, [] => .ok none
  | num + 1, accum, c :: s =>
      match radix.dig c with
      | none => .ok none
      | some n => (accumulate I radix n accum).bind fun accum => digitsExactLoop num accum s

/-- `digitsExact`. -/
def digitsExact (num : ℕ) (s : List Char) : Answer ℕ := digitsExactLoop I radix num 0 s

/-- The `digits` that reads up to `max` digits. -/
def digitsUpTo : ℕ → ℕ → List Char → Answer ℕ
  | 0, accum, s => .ok (some (accum, s))
  | _ + 1, accum, [] => .ok (some (accum, []))
  | max + 1, accum, c :: s =>
      match radix.dig c with
      | none => .ok (some (accum, c :: s))
      | some n => (accumulate I radix n accum).bind fun accum => digitsUpTo max accum s

/-- `digitsPlus`. -/
def digitsPlus (max : ℕ) : List Char → Answer ℕ
  | [] => .ok none
  | c :: s =>
      match radix.dig c with
      | none => .ok none
      | some n => digitsUpTo I radix (max - 1) n s

/-- The `loop` of `digits`. -/
def digitsLoop : ℕ → List Char → Answer ℕ
  | accum, [] => .ok (some (accum, []))
  | accum, c :: s =>
      match radix.dig c with
      | none => .ok (some (accum, c :: s))
      | some n => (accumulate I radix n accum).bind fun accum => digitsLoop accum s

/-- `digits`. -/
def digits : List Char → Answer ℕ
  | [] => .ok none
  | c :: s =>
      match radix.dig c with
      | none => .ok none
      | some n => digitsLoop I radix n s

end StringCvt

/-! ## Formatting sequences -/

/-- `formatChar`. -/
def formatChar : List Char → Option (List Char)
  | [] => none
  | c :: s => if isSpace c then some s else none

/-- `formatChars`. -/
def formatChars : List Char → List Char
  | [] => []
  | c :: s => if isSpace c then formatChars s else c :: s

theorem formatChars_length_le : ∀ s : List Char, (formatChars s).length ≤ s.length
  | [] => le_refl _
  | c :: s => by
    rw [formatChars]
    split
    · exact (formatChars_length_le s).trans (Nat.le_succ _)
    · exact le_refl _

theorem formatChar_length_lt : ∀ {s s' : List Char}, formatChar s = some s' → s'.length < s.length
  | c :: s, s', h => by
    simp only [formatChar, Option.ite_none_right_eq_some, Option.some.injEq] at h
    simp [h.2]

/-- `formatSequencesOpt`. -/
def formatSequencesOpt : List Char → Option (List Char)
  | '\\' :: state1 =>
      match _h : formatChar state1 with
      | none => none
      | some state2 =>
          match _h' : formatChars state2 with
          | '\\' :: state4 =>
              match formatSequencesOpt state4 with
              | some state5 => some state5
              | none => some state4
          | _ => none
  | _ => none
termination_by s => s.length
decreasing_by
  have h₁ := formatChar_length_lt ‹_›
  have h₂ := formatChars_length_le state2
  have h₃ := congrArg List.length ‹formatChars state2 = _›
  simp only [List.length_cons] at *
  omega

/-- `formatSequences`. -/
def formatSequences (s : List Char) : List Char := (formatSequencesOpt s).getD s

/-! ## Reading a character -/

section Scan

variable (C : PreChar)

/-- `chrOpt`. -/
def chrOpt (n : ℕ) : Option C.Chr := if h : n < C.numChars then some ⟨n, h⟩ else none

/-- `chrUnsafe`. -/
def chrUnsafe (n : ℕ) : C.Chr := ⟨n % C.numChars, Nat.mod_lt _ (by have := C.le_numChars; omega)⟩

/-- `fromChar`. -/
def fromChar (c : Char) : C.Chr := chrUnsafe C c.toNat

/-- `Reader.mapOpt`, of `chrOpt`. -/
def mapChr (answer : Answer ℕ) : Answer C.Chr :=
  answer.map fun read => read.bind fun (n, s) => (chrOpt C n).map fun c => (c, s)

/-- `control`. -/
def control : List Char → Answer C.Chr
  | [] => .ok none
  | c :: s => if '@' ≤ c ∧ c ≤ '_' then .ok (some (chrUnsafe C (c.toNat - '@'.toNat), s)) else .ok none

/-- The characters that `isPrint` of `Char` would hold of. -/
def printable (c : Char) : Prop := ' ' ≤ c ∧ c ≤ '~'

instance (c : Char) : Decidable (printable c) := inferInstanceAs (Decidable (_ ∧ _))

variable (I : DefaultInt)

/-- The `escape` of `scan`. -/
def escape : List Char → Answer C.Chr
  | [] => .ok none
  | c :: s =>
      let yes (n : ℕ) : Answer C.Chr := .ok (some (chrUnsafe C n, s))
      match c with
      | 'a' => yes 7
      | 'b' => yes 8
      | 't' => yes 9
      | 'n' => yes 10
      | 'v' => yes 11
      | 'f' => yes 12
      | 'r' => yes 13
      | '\\' => yes 92
      | '"' => yes 34
      | '^' => control C s
      | 'u' => mapChr C (digitsExact I .hex 4 s)
      | 'U' => mapChr C (digitsExact I .hex 8 s)
      | _ => mapChr C (digitsExact I .dec 3 (c :: s))

/-- `scan`. -/
def scan (s : List Char) : Answer C.Chr :=
  match formatSequences s with
  | [] => .ok none
  | c :: s =>
      if printable c then
        match c with
        | '\\' => escape C I s
        | '"' => .ok none
        | _ => .ok (some (fromChar C c, formatSequences s))
      else .ok none

/-- The `escape` of `scanC`. -/
def escapeC : List Char → Answer C.Chr
  | [] => .ok none
  | c :: s =>
      let yes (n : ℕ) : Answer C.Chr := .ok (some (chrUnsafe C n, s))
      match c with
      | 'a' => yes 7
      | 'b' => yes 8
      | 't' => yes 9
      | 'n' => yes 10
      | 'v' => yes 11
      | 'f' => yes 12
      | 'r' => yes 13
      | '?' => yes 63
      | '\\' => yes 92
      | '"' => yes 34
      | '\'' => yes 39
      | '^' => control C s
      | 'x' => mapChr C (digits I .hex s)
      | 'u' => mapChr C (digitsExact I .hex 4 s)
      | 'U' => mapChr C (digitsExact I .hex 8 s)
      | _ => mapChr C (digitsPlus I .oct 3 (c :: s))

/-- `scanC`. -/
def scanC : List Char → Answer C.Chr
  | [] => .ok none
  | c :: s =>
      if printable c then
        match c with
        | '\\' => escapeC C I s
        | _ => .ok (some (fromChar C c, s))
      else .ok none

end Scan

/-! ## Writing a character -/

/-- `padLeft`. -/
def padLeft (s : List Char) (n : ℕ) : Except Exn (List Char) :=
  let diff : ℤ := n - s.length
  if diff > 0 then .ok (List.replicate diff.toNat '0' ++ s)
  else if diff = 0 then .ok s
  else .error (.fail "padLeft")

/-- `unicodeEscape`. -/
def unicodeEscape (ord : ℕ) : Except Exn (List Char) := do
  if ord < 65536 then return ['\\', 'u'] ++ (← padLeft (smallFmt .hex ord) 4)
  else return ['\\', 'U'] ++ (← padLeft (smallFmt .hex ord) 8)

/-- `isPrint`. -/
def isPrint (ord : ℕ) : Prop := ' '.toNat ≤ ord ∧ ord ≤ '~'.toNat

instance (ord : ℕ) : Decidable (isPrint ord) := inferInstanceAs (Decidable (_ ∧ _))

section Show

variable {C : PreChar}

/-- `toString`. -/
def toString (c : C.Chr) : Except Exn (List Char) :=
  let ord := c.val
  if isPrint ord then
    match ord with
    | 92 => .ok ['\\', '\\']
    | 34 => .ok ['\\', '"']
    | _ => .ok [Char.ofNat ord]
  else
    match ord with
    | 7 => .ok ['\\', 'a']
    | 8 => .ok ['\\', 'b']
    | 9 => .ok ['\\', 't']
    | 10 => .ok ['\\', 'n']
    | 11 => .ok ['\\', 'v']
    | 12 => .ok ['\\', 'f']
    | 13 => .ok ['\\', 'r']
    | _ =>
        if ord < 32 then .ok ['\\', '^', Char.ofNat (ord + 64)]
        else if ord < 256 then do return ['\\'] ++ (← padLeft (smallFmt .dec ord) 3)
        else unicodeEscape ord

/-- `toCString`. -/
def toCString (c : C.Chr) : Except Exn (List Char) :=
  let ord := c.val
  if isPrint ord then
    match ord with
    | 92 => .ok ['\\', '\\']
    | 34 => .ok ['\\', '"']
    | 63 => .ok ['\\', '?']
    | 39 => .ok ['\\', '\'']
    | _ => .ok [Char.ofNat ord]
  else
    match ord with
    | 7 => .ok ['\\', 'a']
    | 8 => .ok ['\\', 'b']
    | 9 => .ok ['\\', 't']
    | 10 => .ok ['\\', 'n']
    | 11 => .ok ['\\', 'v']
    | 12 => .ok ['\\', 'f']
    | 13 => .ok ['\\', 'r']
    | _ =>
        if ord < 256 then do return ['\\'] ++ (← padLeft (smallFmt .oct ord) 3)
        else unicodeEscape ord

end Show

end MLton.CharFn
