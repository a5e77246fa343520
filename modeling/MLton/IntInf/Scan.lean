import MLton.IntInf.Widths

/-!
# IntInf/Scan — the reader of integers

A reader takes from a state what it reads and the state after it.  `scan` stacks readers on a reader of
characters: of digits, of chunks of digits that fit in a machine word, of unsigned integers, of those after
`0x`, and of signed ones after white space.  Each of them makes its state smaller, and so each of them can be
called again.
-/

namespace MLton.IntInf

/-- `StringCvt.radix`. -/
inductive Radix where
  | bin
  | oct
  | dec
  | hex
  deriving DecidableEq, Repr

/-- `radixToInt`. -/
def Radix.toNat : Radix → ℕ
  | bin => 2
  | oct => 8
  | dec => 10
  | hex => 16

/-! ## Digits -/

/-- `binDig`. -/
def binDig (ch : Char) : Option ℕ :=
  if ch = '0' then some 0 else if ch = '1' then some 1 else none

/-- `octDig`. -/
def octDig (ch : Char) : Option ℕ :=
  if '0' ≤ ch ∧ ch ≤ '7' then some (ch.toNat - '0'.toNat) else none

/-- `decDig`. -/
def decDig (ch : Char) : Option ℕ :=
  if '0' ≤ ch ∧ ch ≤ '9' then some (ch.toNat - '0'.toNat) else none

/-- `hexDig`. -/
def hexDig (ch : Char) : Option ℕ :=
  if '0' ≤ ch ∧ ch ≤ '9' then some (ch.toNat - '0'.toNat)
  else if 'a' ≤ ch ∧ ch ≤ 'f' then some (ch.toNat - ('a'.toNat - 0xa))
  else if 'A' ≤ ch ∧ ch ≤ 'F' then some (ch.toNat - ('A'.toNat - 0xa))
  else none

/-- The digit converter of a radix. -/
def Radix.dig : Radix → Char → Option ℕ
  | bin => binDig
  | oct => octDig
  | dec => decDig
  | hex => hexDig

/-- `isSpace`. -/
def isSpace (c : Char) : Bool := c ∈ [' ', '\t', '\r', '\n', Char.ofNat 11, Char.ofNat 12]

/-! ## Readers -/

/-- A reader, of a state that becomes smaller. -/
structure Reader {α : Type} (size : α → ℕ) (β : Type) where
  read : α → Option (β × α)
  size_lt : ∀ {s b s'}, read s = some (b, s') → size s' < size s

variable {α : Type} {size : α → ℕ}

/-- The characters that a reader has yet to read. -/
def Reader.text (cread : Reader size Char) (s : α) : List Char :=
  match _h : cread.read s with
  | none => []
  | some (c, s') => c :: cread.text s'
termination_by size s
decreasing_by exact cread.size_lt ‹_›

/-- `skipWS`, by `dropl`. -/
def skipWS (cread : Reader size Char) (s : α) : α :=
  match _h : cread.read s with
  | none => s
  | some (c, s') => if isSpace c then skipWS cread s' else s
termination_by size s
decreasing_by exact cread.size_lt ‹_›

theorem size_skipWS_le (cread : Reader size Char) (s : α) : size (skipWS cread s) ≤ size s := by
  induction s using skipWS.induct cread with
  | case1 s h => rw [skipWS, h]
  | case2 s c s' h hc ih =>
    rw [skipWS, h]
    have := cread.size_lt h
    simp only [hc, if_true]
    omega
  | case3 s c s' h hc =>
    rw [skipWS, h]
    simp [hc]

/-! ## The readers that `scan` is made of -/

/-- `toDigR`. -/
def toDigR (charToDig : Char → Option ℕ) (cread : Reader size Char) : Reader size ℕ where
  read s :=
    match cread.read s with
    | none => none
    | some (ch, s') =>
        match charToDig ch with
        | none => none
        | some dig => some (dig, s')
  size_lt {s b s'} h := by
    split at h
    · cases h
    next hread =>
      split at h
      · cases h
      · cases h
        exact cread.size_lt hread

/-- `chunk`. -/
structure Chunk where
  /-- Whether there might be more digits. -/
  more : Bool
  /-- The base to the power of the number of digits seen. -/
  shift : ℕ
  /-- The value of the digits seen. -/
  chunk : ℕ
  deriving DecidableEq, Repr

section Words

variable (w : Widths)

/-- `W.*`. -/
def mulWord (a b : ℕ) : ℕ := a * b % 2 ^ w.objptr

/-- `W.+`. -/
def addWord (a b : ℕ) : ℕ := (a + b) % 2 ^ w.objptr

/-- `digitsPerChunk`. -/
def digitsPerChunk (radix : Radix) : ℕ :=
  match decide (w.objptr = 64), radix with
  | true, .hex => 15
  | true, .dec => 18
  | true, .oct => 20
  | true, .bin => 61
  | false, .hex => 7
  | false, .dec => 8
  | false, .oct => 9
  | false, .bin => 29

/-- The `loop` of `toChunkR`. -/
def chunkLoop (base : ℕ) (dread : Reader size ℕ) : ℕ → ℕ → ℕ → α → Chunk × α
  | 0, shift, chunk, s => (⟨true, shift, chunk⟩, s)
  | left + 1, shift, chunk, s =>
      match dread.read s with
      | none => (⟨false, shift, chunk⟩, s)
      | some (dig, s') =>
          chunkLoop base dread left (mulWord w base shift) (addWord w (mulWord w base chunk) dig) s'

theorem size_chunkLoop_le (base : ℕ) (dread : Reader size ℕ) :
    ∀ (left shift chunk : ℕ) (s : α), size (chunkLoop w base dread left shift chunk s).2 ≤ size s
  | 0, _, _, _ => le_rfl
  | left + 1, shift, chunk, s => by
    rw [chunkLoop]
    split
    · exact le_rfl
    next hread =>
      have := dread.size_lt hread
      have := size_chunkLoop_le base dread left (mulWord w base shift)
      exact (this _ _).trans (by omega)

/-- `toChunkR`. -/
def toChunkR (radix : Radix) (dread : Reader size ℕ) : Reader size Chunk where
  read s :=
    match dread.read s with
    | none => none
    | some (dig, next) => some (chunkLoop w radix.toNat dread (digitsPerChunk w radix - 1) radix.toNat dig next)
  size_lt {s b s'} h := by
    split at h
    · cases h
    next dig s₁ hread =>
      rw [Option.some.injEq] at h
      have hlt := (size_chunkLoop_le w radix.toNat dread (digitsPerChunk w radix - 1) radix.toNat dig
        s₁).trans_lt (dread.size_lt hread)
      rwa [h] at hlt

end Words

/-- The `loop` of `toUnsR`. -/
def unsLoop (ckread : Reader size Chunk) (more : Bool) (acc : ℤ) (s : α) : ℤ × α :=
  if more then
    match _h : ckread.read s with
    | none => (acc, s)
    | some (c, s') => unsLoop ckread c.more (c.shift * acc + c.chunk) s'
  else (acc, s)
termination_by size s
decreasing_by exact ckread.size_lt ‹_›

theorem size_unsLoop_le (ckread : Reader size Chunk) (more : Bool) (acc : ℤ) (s : α) :
    size (unsLoop ckread more acc s).2 ≤ size s := by
  induction more, acc, s using unsLoop.induct ckread with
  | case1 acc s h => rw [unsLoop, if_pos rfl, h]
  | case2 acc s c s' h ih =>
    rw [unsLoop, if_pos rfl, h]
    exact ih.trans (ckread.size_lt h).le
  | case3 more acc s h => rw [unsLoop, if_neg h]

/-- `toUnsR`. -/
def toUnsR (ckread : Reader size Chunk) : Reader size ℤ where
  read s :=
    match ckread.read s with
    | none => none
    | some (c, s') => some (unsLoop ckread c.more c.chunk s')
  size_lt {s b s'} h := by
    split at h
    · cases h
    next c s₁ hread =>
      rw [Option.some.injEq] at h
      have hlt := (size_unsLoop_le ckread c.more c.chunk s₁).trans_lt (ckread.size_lt hread)
      rwa [h] at hlt

/-- `toHexR`. -/
def toHexR (cread : Reader size Char) (uread : Reader size ℤ) : Reader size ℤ where
  read s :=
    match cread.read s with
    | none => none
    | some (c1, s1) =>
        if c1 = '0' then
          match cread.read s1 with
          | none => some (0, s1)
          | some (c2, s2) =>
              if c2 = 'x' ∨ c2 = 'X' then
                match uread.read s2 with
                | none => some (0, s1)
                | some x => some x
              else uread.read s
        else uread.read s
  size_lt {s b s'} h := by
    split at h
    · cases h
    next s1 hread =>
      have hlt := cread.size_lt hread
      split at h
      · split at h
        · cases h
          exact hlt
        next s2 hread' =>
          have hlt' := cread.size_lt hread'
          split at h
          · split at h
            · cases h
              exact hlt
            next hun =>
              cases h
              exact (uread.size_lt hun).trans (hlt'.trans hlt)
          · exact uread.size_lt h
      · exact uread.size_lt h

/-- The sign that a number begins with, and the state after it. -/
def sign (ch : Char) (s s' : α) : Bool × α :=
  if ch = '+' then (false, s')
  else if ch = '-' then (true, s')
  else if ch = '~' then (true, s')
  else (false, s)

theorem size_sign_le (ch : Char) {s s' : α} (h : size s' ≤ size s) : size (sign ch s s').2 ≤ size s := by
  unfold sign
  split_ifs <;> first | exact h | exact le_rfl

/-- `toSign`. -/
def toSign (cread : Reader size Char) (uread : Reader size ℤ) : Reader size ℤ where
  read s₀ :=
    let s := skipWS cread s₀
    match cread.read s with
    | none => none
    | some (ch, s') =>
        if (sign ch s s').1 then
          match uread.read (sign ch s s').2 with
          | none => none
          | some (abs, s₁) => some (-abs, s₁)
        else uread.read (sign ch s s').2
  size_lt {s₀ b s₁} h := by
    have hws := size_skipWS_le cread s₀
    dsimp only at h
    split at h
    · cases h
    next ch s' hread =>
      have hle := (size_sign_le ch (cread.size_lt hread).le).trans hws
      split at h
      · split at h
        · cases h
        next hun =>
          cases h
          exact (uread.size_lt hun).trans_le hle
      · exact (uread.size_lt h).trans_le hle

/-- `scan`. -/
def scan (w : Widths) (radix : Radix) (cread : Reader size Char) : Reader size ℤ :=
  let dread := toDigR radix.dig cread
  let ckread := toChunkR w radix dread
  let uread := toUnsR ckread
  let hread := if radix = .hex then toHexR cread uread else uread
  toSign cread hread

/-- A list as a state. -/
def listReader : Reader (List.length (α := Char)) Char where
  read
    | [] => none
    | c :: cs => some (c, cs)
  size_lt {s b s'} h := by
    cases s with
    | nil => cases h
    | cons c cs =>
      cases h
      simp

end MLton.IntInf
