import MLton.Basis.CharScan

/-!
# Basis/Time — times, and the reader of decimal seconds

A time is a number of nanoseconds.  `scan` reads one from any reader of characters: the seconds and the digits of the
fraction are gathered in default integers, whose overflow is checked, and only seven digits of the fraction are.
-/

namespace MLton

open IntInf CharFn

/-- `time`. -/
structure Time where
  ticks : ℤ
  deriving DecidableEq

namespace Time

/-- The exceptions that the functions here raise. -/
inductive Exn where
  | overflow
  | time
  deriving DecidableEq

/-- `ticksPerSecond`. -/
def ticksPerSecond : ℤ := 1000000000

/-! ## Units -/

/-- The first function of `make`. -/
def fromUnits (ticksPer : ℤ) (i : ℤ) : Time := ⟨i * ticksPerSecond.tdiv ticksPer⟩

/-- The second function of `make`. -/
def toUnits (ticksPer : ℤ) (t : Time) : ℤ := t.ticks.tdiv (ticksPerSecond.tdiv ticksPer)

/-- `fromSeconds`. -/
def fromSeconds : ℤ → Time := fromUnits 1

/-- `toSeconds`. -/
def toSeconds : Time → ℤ := toUnits 1

theorem fromSeconds_ticks (i : ℤ) : (fromSeconds i).ticks = i * 1000000000 := rfl

theorem toSeconds_eq (t : Time) : toSeconds t = t.ticks.tdiv 1000000000 := rfl

/-! ## Reading -/

section Scan

variable (I : DefaultInt)

/-- The result of an operation on `int`s, which is checked. -/
def checked (n : ℕ) : Except Exn ℕ := if I.Fits n then .ok n else .error .overflow

/-- `10 * v + d`. -/
def accumulate (v d : ℕ) : Except Exn ℕ := do
  let product ← checked I (10 * v)
  checked I (product + d)

/-- `pow10`. -/
def pow10 : ℕ → Except Exn ℕ
  | 0 => .ok 1
  | n + 1 => do
    let power ← pow10 n
    checked I (10 * power)

/-- `mkTime`. -/
def mkTime (sign : Bool) (intv fracv decs : ℕ) : Except Exn Time := do
  let power ← pow10 I (10 - decs)
  let nsec : ℤ := (power * fracv + 5) / 10
  let t := intv * ticksPerSecond + nsec
  pure ⟨if sign then t else -t⟩

variable {α : Type} {size : α → ℕ} (getc : Reader size Char)

/-- `Char.isDigit`. -/
def isDigit (c : Char) : Bool := '0' ≤ c ∧ c ≤ '9'

/-- `dropl`. -/
def dropl (p : Char → Bool) (src : α) : α :=
  match _h : getc.read src with
  | none => src
  | some (c, rest) => if p c then dropl p rest else src
termination_by size src
decreasing_by exact getc.size_lt ‹_›

/-- `frac'`. -/
def frac' (sign : Bool) (intv fracv decs : ℕ) (src : α) : Except Exn (Option (Time × α)) :=
  if 7 ≤ decs then (mkTime I sign intv fracv decs).map fun t => some (t, dropl getc isDigit src)
  else
    match _h : getc.read src with
    | none => (mkTime I sign intv fracv decs).map fun t => some (t, src)
    | some (c, rest) =>
        match decDig c with
        | none => (mkTime I sign intv fracv decs).map fun t => some (t, src)
        | some d => (accumulate I fracv d).bind fun fracv => frac' sign intv fracv (decs + 1) rest
termination_by size src
decreasing_by exact getc.size_lt ‹_›

/-- `frac`. -/
def frac (sign : Bool) (intv : ℕ) (src : α) : Except Exn (Option (Time × α)) :=
  match getc.read src with
  | none => .ok none
  | some (c, rest) =>
      match decDig c with
      | none => .ok none
      | some d => frac' I getc sign intv d 1 rest

/-- `int'`. -/
def int' (sign : Bool) (intv : ℕ) (src : α) : Except Exn (Option (Time × α)) :=
  match _h : getc.read src with
  | none => (mkTime I sign intv 0 7).map fun t => some (t, src)
  | some (c, rest) =>
      if c = '.' then frac I getc sign intv rest
      else
        match decDig c with
        | none => (mkTime I sign intv 0 7).map fun t => some (t, src)
        | some d => (accumulate I intv d).bind fun intv => int' sign intv rest
termination_by size src
decreasing_by exact getc.size_lt ‹_›

/-- `int`. -/
def int (sign : Bool) (src : α) : Except Exn (Option (Time × α)) :=
  match getc.read src with
  | none => .ok none
  | some (c, rest) =>
      if c = '.' then frac I getc sign 0 rest
      else
        match decDig c with
        | none => .ok none
        | some d => int' I getc sign d rest

/-- The body of `scan`. -/
def scanBody (src : α) : Except Exn (Option (Time × α)) :=
  match getc.read (skipWS getc src) with
  | none => .ok none
  | some (c, rest) =>
      if c = '+' then int I getc true rest
      else if c = '~' then int I getc false rest
      else if c = '-' then int I getc false rest
      else if c = '.' then frac I getc true 0 rest
      else
        match decDig c with
        | none => .ok none
        | some d => int' I getc true d rest

/-- `scan`, with its handler. -/
def scan (src : α) : Except Exn (Option (Time × α)) :=
  match scanBody I getc src with
  | .error .overflow => .error .time
  | r => r

end Scan

/-! ## What the integers take -/

section Checked

variable {I : DefaultInt} {m n : ℕ}

theorem fits_of_lt (h : n < 2 ^ 31) : I.Fits n := by
  cases I with
  | int32 =>
    rintro m ⟨⟩
    omega
  | int64 =>
    rintro m ⟨⟩
    omega
  | intInf => exact fun m hm => by cases hm

theorem fits_mono (h : I.Fits n) (hle : m ≤ n) : I.Fits m := fun k hk => hle.trans (h k hk)

theorem checked_of_fits (h : I.Fits n) : checked I n = .ok n := if_pos h

theorem accumulate_of_fits {v d : ℕ} (h : I.Fits (10 * v + d)) : accumulate I v d = .ok (10 * v + d) := by
  have hproduct := checked_of_fits (fits_mono h (Nat.le_add_right _ d))
  rw [accumulate, hproduct]
  exact checked_of_fits h

theorem accumulate_of_not_fits {v d : ℕ} (h : ¬ I.Fits (10 * v + d)) : accumulate I v d = .error .overflow := by
  rw [accumulate, checked]
  split
  · exact if_neg h
  · rfl

theorem pow10_eq : ∀ {n : ℕ}, n ≤ 9 → pow10 I n = .ok (10 ^ n)
  | 0, _ => rfl
  | n + 1, h => by
    have hle : 10 * 10 ^ n ≤ 10 ^ 9 := (pow_succ' 10 n).symm.trans_le (Nat.pow_le_pow_right (by norm_num) h)
    have hpow := pow10_eq (Nat.le_of_succ_le h)
    rw [pow10, hpow, pow_succ']
    exact checked_of_fits (fits_of_lt (hle.trans_lt (by norm_num)))

/-- A time with a sign. -/
def signed (sign : Bool) (n : ℕ) : Time := ⟨if sign then (n : ℤ) else -(n : ℤ)⟩

/-- **`mkTime`** does not round, since the digits are few. -/
theorem mkTime_eq {sign : Bool} {intv fracv decs : ℕ} (hpos : 1 ≤ decs) (hle : decs ≤ 7) :
    mkTime I sign intv fracv decs = .ok (signed sign (intv * 10 ^ 9 + fracv * 10 ^ (9 - decs))) := by
  have hpow : pow10 I (10 - decs) = .ok (10 ^ (10 - decs)) := pow10_eq (by omega)
  have hten : (10 : ℕ) ^ (10 - decs) = 10 * 10 ^ (9 - decs) := by
    rw [← pow_succ']
    congr 1
    omega
  have hnsec : ((10 ^ (10 - decs) : ℕ) * (fracv : ℤ) + 5) / 10 = (fracv * 10 ^ (9 - decs) : ℕ) := by
    rw [hten]
    push_cast
    have hcomm : (10 : ℤ) * 10 ^ (9 - decs) * fracv = fracv * 10 ^ (9 - decs) * 10 := by ring
    rw [hcomm]
    omega
  rw [mkTime, hpow]
  simp only [signed, bind, Except.bind, pure, Except.pure, hnsec, ticksPerSecond]
  push_cast
  rfl

end Checked

end Time

end MLton
