import Mathlib.Data.Nat.Prime.Basic
import MLton.IntInf.Runtime

/-!
# IntInf/Operations — the operations of the basis library

An operation answers from the words of fixnums where it can and calls the runtime otherwise, with the
bytes that it reserves for the answer.  What each one does on the representations of integers is said
once, in its `_ofInt` lemma.
-/

namespace MLton.IntInf

open BigInt

/-- The exceptions of the operations. -/
inductive Exn where
  | overflow
  | div
  deriving DecidableEq, Repr

/-- What an operation comes to: an answer, or a call of the runtime with the bytes reserved for it. -/
inductive Reply where
  | done (i : BigInt)
  | call (c : RuntimeCall) (bytes : ℕ)

namespace Reply

/-- The answer. -/
def int {t : Target} (mpz : Mpz t) : Reply → BigInt
  | done i => i
  | call c _ => c.run mpz

end Reply

/-! ## The runtime, as the library imports it -/

namespace Prim

def add (lhs rhs : BigInt) (bytes : ℕ) : Reply := .call (.binop .add lhs rhs) bytes
def sub (lhs rhs : BigInt) (bytes : ℕ) : Reply := .call (.binop .sub lhs rhs) bytes
def mul (lhs rhs : BigInt) (bytes : ℕ) : Reply := .call (.binop .mul lhs rhs) bytes
def quot (lhs rhs : BigInt) (bytes : ℕ) : Reply := .call (.binop .tdivQ lhs rhs) bytes
def rem (lhs rhs : BigInt) (bytes : ℕ) : Reply := .call (.binop .tdivR lhs rhs) bytes
def gcd (lhs rhs : BigInt) (bytes : ℕ) : Reply := .call (.binop .gcd lhs rhs) bytes
def andb (lhs rhs : BigInt) (bytes : ℕ) : Reply := .call (.binop .and lhs rhs) bytes
def orb (lhs rhs : BigInt) (bytes : ℕ) : Reply := .call (.binop .ior lhs rhs) bytes
def xorb (lhs rhs : BigInt) (bytes : ℕ) : Reply := .call (.binop .xor lhs rhs) bytes
def neg (arg : BigInt) (bytes : ℕ) : Reply := .call (.unop .neg arg) bytes
def notb (arg : BigInt) (bytes : ℕ) : Reply := .call (.unop .com arg) bytes
def lshift (arg : BigInt) (shift : UInt32) (bytes : ℕ) : Reply := .call (.shop .mul2Exp arg shift) bytes
def arshift (arg : BigInt) (shift : UInt32) (bytes : ℕ) : Reply := .call (.shop .fdivQ2Exp arg shift) bytes
def compare {t : Target} (mpz : Mpz t) (lhs rhs : BigInt) : ℤ := cmpop mpz lhs rhs

end Prim

/-! ## Words of an object pointer's size -/

section Words

variable (t : Target)

/-- A result that is checked for overflow. -/
def checked (i : ℤ) : Except Exn ℤ :=
  if -(2 * t.bound) ≤ i ∧ i < 2 * t.bound then .ok i else .error .overflow

/-- `minInt'`. -/
def minInt : ℤ := -(2 * t.bound)

/-- `I.abs`. -/
def absInt (x : ℤ) : Except Exn ℤ := if x < 0 then checked t (-x) else .ok x

/-- `I.quot`. -/
def quotInt (x y : ℤ) : Except Exn ℤ :=
  if y = 0 then .error .div
  else if x = minInt t ∧ y = -1 then .error .overflow
  else .ok (x.tdiv y)

/-- `I.rem`. -/
def remInt (x y : ℤ) : Except Exn ℤ :=
  if y = 0 then .error .div
  else if x = minInt t ∧ y = -1 then .ok 0
  else .ok (x.tmod y)

/-- `smallGcd`, of absolute values. -/
def smallGcd (a b acc : ℕ) : Except Exn ℤ :=
  if a = 0 then checked t (b * acc)
  else if b = 0 then checked t (a * acc)
  else if b = 1 then .ok acc
  else if a = 1 then .ok acc
  else if a = b then checked t (a * acc)
  else if a % 2 = 0 then
    if b % 2 = 0 then do
      let acc ← checked t (acc + acc)
      smallGcd (a / 2) (b / 2) acc.toNat
    else smallGcd (a / 2) b acc
  else if b % 2 = 0 then smallGcd a (b / 2) acc
  else if b ≤ a then smallGcd ((a - b) / 2) b acc
  else smallGcd a ((b - a) / 2) acc
termination_by a + b

/-- `badObjptrInt`: the fixnum whose negation is none. -/
def badObjptrInt : ℤ := minInt t / 2

/-- `badObjptrWordTagged`. -/
def badObjptrWordTagged : ℤ := addTag t (badObjptrInt t)

/-- `sextdFromObjptrInt`. -/
def sextdFromObjptrInt (i : ℤ) : BigInt :=
  let upperBits := i / 2 ^ (t.objptr - 2)
  if upperBits = 0 ∨ upperBits = -1 then .word (addTag t i)
  else .vector (signLimb i :: Nat.digits t.base i.natAbs)

/-- `negBadIntInf`. -/
def negBadIntInf : BigInt := sextdFromObjptrInt t (t.word (-badObjptrInt t))

end Words

/-! ## The operations -/

section Operations

variable (t : Target)

/-- `reserve`; a size is a word as wide as a limb. -/
def reserve (num extra : ℕ) : ℕ :=
  (bytesPerMPLimb t * num + (bytesPerMPLimb t * extra + (bytesPerMPLimb t + (t.metaData +
    if t.align = 4 then 3 else 7)))) % 2 ^ t.limb

/-- The `make` of `bigAdd`, `bigSub` and `bigMul`. -/
def makeArith (smallOp : ℤ → ℤ → Except Exn ℤ) (bigOp : BigInt → BigInt → ℕ → Reply)
    (limbsFn : ℕ → ℕ → ℕ) (extra : ℕ) (lhs rhs : BigInt) : Reply :=
  let res : Option BigInt :=
    if areSmall lhs rhs then
      match smallOp (dropTag lhs.toWord) (dropTag rhs.toWord) with
      | .ok ansi => if sameSignBit (addTag t ansi) ansi then some (.word (addTag t ansi)) else none
      | .error _ => none
    else none
  match res with
  | none => bigOp lhs rhs (reserve t (limbsFn lhs.numLimbs rhs.numLimbs) extra)
  | some i => .done i

/-- `bigAdd`. -/
def bigAdd : BigInt → BigInt → Reply := makeArith t (fun i j => checked t (i + j)) Prim.add max 1

/-- `bigSub`. -/
def bigSub : BigInt → BigInt → Reply := makeArith t (fun i j => checked t (i - j)) Prim.sub max 1

/-- `bigMul`. -/
def bigMul : BigInt → BigInt → Reply :=
  makeArith t (fun i j => checked t (i * j)) Prim.mul (fun m n => m + n) 0

/-- `bigNeg`. -/
def bigNeg (arg : BigInt) : Reply :=
  if arg.isSmall then
    if arg.toWord = badObjptrWordTagged t then .done (negBadIntInf t)
    else .done (.word (t.word (2 - arg.toWord)))
  else Prim.neg arg (reserve t arg.numLimbs 1)

/-- `bigQuot`. -/
def bigQuot (num den : BigInt) : Except Exn Reply :=
  if areSmall num den then
    let numi := dropTag num.toWord
    let deni := dropTag den.toWord
    if numi = badObjptrInt t ∧ deni = -1 then .ok (.done (negBadIntInf t))
    else do
      let ansi ← quotInt t numi deni
      .ok (.done (.word (addTag t ansi)))
  else
    let nlimbs := num.numLimbs
    let dlimbs := den.numLimbs
    if nlimbs < dlimbs then .ok (.done zero)
    else if den = zero then .error .div
    else .ok (Prim.quot num den (reserve t (nlimbs - dlimbs) 2))

/-- `bigRem`. -/
def bigRem (num den : BigInt) : Except Exn Reply :=
  if areSmall num den then do
    let ansi ← remInt t (dropTag num.toWord) (dropTag den.toWord)
    .ok (.done (.word (addTag t ansi)))
  else
    let nlimbs := num.numLimbs
    let dlimbs := den.numLimbs
    if nlimbs < dlimbs then .ok (.done num)
    else if den = zero then .error .div
    else .ok (Prim.rem num den (reserve t dlimbs 1))

/-- `bigGcd`. -/
def bigGcd (lhs rhs : BigInt) : Except Exn Reply :=
  if areSmall lhs rhs then do
    let a ← absInt t (dropTag lhs.toWord)
    let b ← absInt t (dropTag rhs.toWord)
    let ansi ← smallGcd t a.toNat b.toNat 1
    .ok (.done (.word (addTag t ansi)))
  else .ok (Prim.gcd lhs rhs (reserve t (max lhs.numLimbs rhs.numLimbs) 0))

/-- The `make` of the comparisons. -/
def makeCompare {α : Type} {t : Target} (mpz : Mpz t) (test : ℤ → ℤ → α) (lhs rhs : BigInt) : α :=
  if areSmall lhs rhs then test lhs.toWord rhs.toWord else test (Prim.compare mpz lhs rhs) 0

section Compare

variable {t}
variable (mpz : Mpz t)

/-- `bigCompare`. -/
def bigCompare : BigInt → BigInt → Ordering := makeCompare mpz compare

/-- `bigLT`. -/
def bigLT : BigInt → BigInt → Bool := makeCompare mpz fun i j => i < j

/-- `bigLE`. -/
def bigLE : BigInt → BigInt → Bool := makeCompare mpz fun i j => i ≤ j

/-- `bigGT`. -/
def bigGT : BigInt → BigInt → Bool := makeCompare mpz fun i j => i > j

/-- `bigGE`. -/
def bigGE : BigInt → BigInt → Bool := makeCompare mpz fun i j => i ≥ j

end Compare

/-- `bigIsNeg`. -/
def bigIsNeg (arg : BigInt) : Bool := arg.toVector.headD 0 != 0

/-- `bigAbs`. -/
def bigAbs (arg : BigInt) : Reply :=
  if arg.isSmall then
    if arg.toWord = badObjptrWordTagged t then .done (negBadIntInf t)
    else if arg.toWord < 0 then .done (.word (t.word (2 - arg.toWord)))
    else .done arg
  else if bigIsNeg arg then Prim.neg arg (reserve t arg.numLimbs 1)
  else .done arg

section DivMod

variable {t}
variable (mpz : Mpz t)

/-- `bigDiv`. -/
def bigDiv (x y : BigInt) : Except Exn BigInt :=
  if bigGE mpz x zero then
    if bigGT mpz y zero then do
      let q ← bigQuot t x y
      .ok (q.int mpz)
    else if bigLT mpz y zero then
      if x = zero then .ok zero
      else do
        let q ← bigQuot t ((bigSub t x one).int mpz) y
        .ok ((bigSub t (q.int mpz) one).int mpz)
    else .error .div
  else if bigLT mpz y zero then do
    let q ← bigQuot t x y
    .ok (q.int mpz)
  else if bigGT mpz y zero then do
    let q ← bigQuot t ((bigAdd t x one).int mpz) y
    .ok ((bigSub t (q.int mpz) one).int mpz)
  else .error .div

/-- `bigMod`. -/
def bigMod (x y : BigInt) : Except Exn BigInt :=
  if bigGE mpz x zero then
    if bigGT mpz y zero then do
      let r ← bigRem t x y
      .ok (r.int mpz)
    else if bigLT mpz y zero then
      if x = zero then .ok zero
      else do
        let r ← bigRem t ((bigSub t x one).int mpz) y
        .ok ((bigAdd t (r.int mpz) ((bigAdd t one y).int mpz)).int mpz)
    else .error .div
  else if bigLT mpz y zero then do
    let r ← bigRem t x y
    .ok (r.int mpz)
  else if bigGT mpz y zero then do
    let r ← bigRem t ((bigAdd t x one).int mpz) y
    .ok ((bigAdd t (r.int mpz) ((bigSub t y one).int mpz)).int mpz)
  else .error .div

end DivMod

/-- The `make` of `bigAndb`, `bigOrb` and `bigXorb`. -/
def makeBitwise (smallOp : ℤ → ℤ → ℤ) (bigOp : BigInt → BigInt → ℕ → Reply) (lhs rhs : BigInt) : Reply :=
  if areSmall lhs rhs then .done (.word (oneTag (smallOp lhs.toWord rhs.toWord)))
  else bigOp lhs rhs (reserve t (max lhs.numLimbs rhs.numLimbs) 0)

/-- `bigAndb`. -/
def bigAndb : BigInt → BigInt → Reply := makeBitwise t Int.land Prim.andb

/-- `bigOrb`. -/
def bigOrb : BigInt → BigInt → Reply := makeBitwise t Int.lor Prim.orb

/-- `bigXorb`. -/
def bigXorb : BigInt → BigInt → Reply := makeBitwise t Int.xor Prim.xorb

/-- `bigNotb`. -/
def bigNotb (arg : BigInt) : Reply :=
  if arg.isSmall then .done (.word (oneTag (Int.lnot arg.toWord)))
  else Prim.notb arg (reserve t arg.numLimbs 0)

/-- `shiftSize`. -/
def shiftSize (shift : UInt32) : ℕ := shift.toNat / t.limb

/-- `bigLshift`. -/
def bigLshift (arg : BigInt) (shift : UInt32) : Reply :=
  if shift = 0 then .done arg
  else Prim.lshift arg shift (reserve t (arg.numLimbs + shiftSize t shift) 1)

/-- `bigRashift`. -/
def bigRashift (arg : BigInt) (shift : UInt32) : Reply :=
  if shift = 0 then .done arg
  else Prim.arshift arg shift (reserve t (arg.numLimbs - shiftSize t shift) 1)

end Operations

/-! ## Words, on fixnums -/

section WordLemmas

variable {t : Target} {i j : ℤ}

theorem checked_of_fits (hlo : -(2 * t.bound) ≤ i) (hhi : i < 2 * t.bound) : checked t i = .ok i :=
  if_pos ⟨hlo, hhi⟩

theorem badObjptrInt_eq : badObjptrInt t = -t.bound := by
  unfold badObjptrInt minInt
  omega

theorem isFixnum_bad : t.IsFixnum (-t.bound) := by
  have := t.bound_pos
  unfold Target.IsFixnum
  omega

theorem badObjptrWordTagged_eq : badObjptrWordTagged t = 2 * -t.bound + 1 := by
  rw [badObjptrWordTagged, badObjptrInt_eq, addTag_fixnum isFixnum_bad]

theorem not_isFixnum_bound : ¬ t.IsFixnum t.bound := fun h => lt_irrefl _ h.2

theorem sextdFromObjptrInt_eq (i : ℤ) : sextdFromObjptrInt t i = ofInt t i := by
  have hb : (2 : ℤ) ^ (t.objptr - 2) = t.bound := by simp [Target.bound]
  have hpos := t.bound_pos
  have hiff : (i / t.bound = 0 ∨ i / t.bound = -1) ↔ t.IsFixnum i := by
    have h1 := Int.emod_add_mul_ediv i t.bound
    have h2 := Int.emod_nonneg i (b := t.bound) (by omega)
    have h3 := Int.emod_lt_of_pos i (b := t.bound) (by omega)
    unfold Target.IsFixnum
    constructor
    · rintro (h | h) <;> rw [h] at h1 <;> omega
    · rintro ⟨hlo, hhi⟩
      obtain h | h := lt_or_ge i 0
      · refine .inr ?_
        rw [show i = i + t.bound + -1 * t.bound by ring, Int.add_mul_ediv_right _ _ (by omega),
          Int.ediv_eq_zero_of_lt (by omega) (by omega)]
        rfl
      · exact .inl (Int.ediv_eq_zero_of_lt h hhi)
  unfold sextdFromObjptrInt
  rw [hb]
  by_cases hfix : t.IsFixnum i
  · simp only [hiff.mpr hfix, if_true, addTag_fixnum hfix, ofInt_fixnum hfix]
  · simp only [mt hiff.mp hfix, if_false, ofInt_big hfix]

theorem negBadIntInf_eq : negBadIntInf t = ofInt t t.bound := by
  have hpos := t.bound_pos
  rw [negBadIntInf, sextdFromObjptrInt_eq, badObjptrInt_eq, neg_neg,
    Target.word_of_lt (by omega) (by omega)]

/-- Negation of a tagged word. -/
theorem word_two_sub (h : t.IsFixnum (-i)) : t.word (2 - (2 * i + 1)) = 2 * -i + 1 := by
  unfold Target.IsFixnum at h
  rw [Target.word_of_lt (by omega) (by omega)]
  omega

theorem oneTag_land (i j : ℤ) : oneTag (Int.land (2 * i + 1) (2 * j + 1)) = 2 * Int.land i j + 1 := by
  have h := Int.land_bit true i true j
  rw [Int.bit_val, Int.bit_val] at h
  exact h ▸ oneTag_bit _ _

theorem oneTag_lor (i j : ℤ) : oneTag (Int.lor (2 * i + 1) (2 * j + 1)) = 2 * Int.lor i j + 1 := by
  have h := Int.lor_bit true i true j
  rw [Int.bit_val, Int.bit_val] at h
  exact h ▸ oneTag_bit _ _

theorem oneTag_xor (i j : ℤ) : oneTag (Int.xor (2 * i + 1) (2 * j + 1)) = 2 * Int.xor i j + 1 := by
  have h := Int.lxor_bit true i true j
  rw [Int.bit_val, Int.bit_val] at h
  exact h ▸ oneTag_bit _ _

theorem oneTag_lnot (i : ℤ) : oneTag (Int.lnot (2 * i + 1)) = 2 * Int.lnot i + 1 := by
  have h := Int.lnot_bit true i
  rw [Int.bit_val] at h
  exact h ▸ oneTag_bit _ _

theorem isFixnum_iff_mag : t.IsFixnum i ↔ TwosComplement.mag i < 2 ^ (t.objptr - 2) :=
  TwosComplement.mag_lt_iff.symm

end WordLemmas

/-! ## The binary algorithm for greatest common divisors -/

section SmallGcd

variable {t : Target}

theorem gcd_half_left {a b : ℕ} (ha : a % 2 = 0) (hb : b % 2 ≠ 0) : (a / 2).gcd b = a.gcd b := by
  have hcop : Nat.Coprime 2 b := Nat.coprime_two_left.mpr (Nat.odd_iff.mpr (by omega))
  conv_rhs => rw [show a = 2 * (a / 2) by omega]
  exact (hcop.gcd_mul_left_cancel _).symm

theorem gcd_half_sub {a b : ℕ} (hab : b ≤ a) (ha : a % 2 ≠ 0) (hb : b % 2 ≠ 0) :
    ((a - b) / 2).gcd b = a.gcd b := by
  rw [gcd_half_left (by omega) hb, Nat.gcd_sub_self_left hab]

theorem gcd_half_half {a b : ℕ} (ha : a % 2 = 0) (hb : b % 2 = 0) :
    2 * (a / 2).gcd (b / 2) = a.gcd b := by
  rw [← Nat.gcd_mul_left, show 2 * (a / 2) = a by omega, show 2 * (b / 2) = b by omega]

theorem checked_mul {a acc : ℕ} (h : acc * a < 2 * t.bound) :
    checked t (a * acc) = .ok (acc * a : ℕ) := by
  rw [show (a * acc : ℤ) = (acc * a : ℕ) by push_cast; ring, checked_of_fits (by omega) (by omega)]

/-- **`smallGcd` computes the greatest common divisor**, and without overflow if that fits. -/
theorem smallGcd_eq (a b acc : ℕ) (h : acc * a.gcd b < 2 * t.bound) :
    smallGcd t a b acc = .ok (acc * a.gcd b : ℕ) := by
  fun_induction smallGcd t a b acc
  case case1 b acc =>
    rw [Nat.gcd_zero_left] at h ⊢
    exact checked_mul h
  case case2 a acc _ =>
    rw [Nat.gcd_zero_right] at h ⊢
    exact checked_mul h
  case case3 a acc _ _ => rw [Nat.gcd_one_right, mul_one]
  case case4 b acc _ _ _ => rw [Nat.gcd_one_left, mul_one]
  case case5 a acc _ _ _ =>
    rw [Nat.gcd_self] at h ⊢
    exact checked_mul h
  case case6 a b acc ha hb _ _ _ heven heven' ih =>
    have hpos : 0 < (a / 2).gcd (b / 2) := Nat.gcd_pos_of_pos_left _ (by omega)
    have heq : acc * a.gcd b = (acc + acc) * (a / 2).gcd (b / 2) := by
      rw [← gcd_half_half heven heven']
      ring
    have hle : acc + acc ≤ (acc + acc) * (a / 2).gcd (b / 2) := Nat.le_mul_of_pos_right _ hpos
    have hacc : checked t (acc + acc) = .ok ((acc + acc : ℕ) : ℤ) := by
      rw [← Nat.cast_add, checked_of_fits (by omega) (by omega)]
    have hrec := ih (acc + acc : ℕ) (by rw [Int.toNat_natCast]; omega)
    rw [Int.toNat_natCast] at hrec
    rw [hacc, heq]
    exact hrec
  case case7 a b acc _ _ _ _ _ heven hodd ih =>
    rw [← gcd_half_left heven hodd] at h ⊢
    exact ih h
  case case8 a b acc _ _ _ _ _ hodd heven ih =>
    rw [Nat.gcd_comm, ← gcd_half_left heven hodd, Nat.gcd_comm] at h ⊢
    exact ih h
  case case9 a b acc _ _ _ _ _ hodd hodd' hle ih =>
    rw [← gcd_half_sub hle hodd hodd'] at h ⊢
    exact ih h
  case case10 a b acc _ _ _ _ _ hodd hodd' hle ih =>
    rw [Nat.gcd_comm, ← gcd_half_sub (by omega) hodd' hodd, Nat.gcd_comm] at h ⊢
    exact ih h

end SmallGcd

/-! ## The operations, on representations of integers -/

section OfInt

variable {t : Target} (i j : ℤ)

theorem isSmall_ofInt : (ofInt t i).isSmall = decide (t.IsFixnum i) := by
  by_cases h : t.IsFixnum i
  · rw [ofInt_fixnum h, isSmall_fixnum, decide_eq_true h]
  · rw [ofInt_big h, decide_eq_false h]
    rfl

theorem areSmall_ofInt :
    areSmall (ofInt t i) (ofInt t j) = decide (t.IsFixnum i ∧ t.IsFixnum j) := by
  by_cases hi : t.IsFixnum i
  · by_cases hj : t.IsFixnum j
    · rw [ofInt_fixnum hi, ofInt_fixnum hj, areSmall_fixnums, decide_eq_true ⟨hi, hj⟩]
    · rw [ofInt_big hj, decide_eq_false (fun h => hj h.2)]
      rw [ofInt_fixnum hi]
      rfl
  · rw [ofInt_big hi, decide_eq_false (fun h => hi h.1)]
    rfl

theorem ofInt_eq_zero_iff : ofInt t i = zero ↔ i = 0 := by
  rw [← ofInt_zero (t := t), ofInt_injective.eq_iff]

theorem toWord_fixnum {i : ℤ} (h : t.IsFixnum i) : (ofInt t i).toWord = 2 * i + 1 := by
  rw [ofInt_fixnum h, toWord]

theorem dropTag_toWord {i : ℤ} (h : t.IsFixnum i) : dropTag (ofInt t i).toWord = i := by
  rw [toWord_fixnum h, dropTag_fixnum]

theorem isFixnum_neg_iff {i : ℤ} (h : t.IsFixnum i) : t.IsFixnum (-i) ↔ i ≠ -t.bound := by
  unfold Target.IsFixnum at h ⊢
  omega

theorem makeArith_ofInt {f : ℤ → ℤ → ℤ} (bigOp : BigInt → BigInt → ℕ → Reply) (limbsFn : ℕ → ℕ → ℕ)
    (extra : ℕ) : makeArith t (fun i j => checked t (f i j)) bigOp limbsFn extra (ofInt t i) (ofInt t j) =
      if t.IsFixnum i ∧ t.IsFixnum j ∧ t.IsFixnum (f i j) then .done (ofInt t (f i j))
      else bigOp (ofInt t i) (ofInt t j)
        (reserve t (limbsFn (ofInt t i).numLimbs (ofInt t j).numLimbs) extra) := by
  have hpos := t.bound_pos
  by_cases hsmall : t.IsFixnum i ∧ t.IsFixnum j
  · obtain ⟨hi, hj⟩ := hsmall
    simp only [makeArith, areSmall_ofInt, hi, hj, and_self, decide_true, if_true, dropTag_toWord,
      true_and]
    by_cases hword : -(2 * t.bound) ≤ f i j ∧ f i j < 2 * t.bound
    · have hiff := sameSignBit_addTag_iff hword.1 hword.2
      by_cases hfix : t.IsFixnum (f i j)
      · have hsign := hiff.mpr hfix
        rw [addTag_fixnum hfix] at hsign
        simp only [checked_of_fits hword.1 hword.2, hsign, if_true, if_pos hfix, addTag_fixnum hfix,
          ofInt_fixnum hfix]
      · simp only [checked_of_fits hword.1 hword.2, mt hiff.mp hfix, if_neg hfix, Bool.false_eq_true,
          if_false]
    · have hfix : ¬ t.IsFixnum (f i j) := by
        unfold Target.IsFixnum
        omega
      simp only [checked, if_neg hword, if_neg hfix]
  · have hsmall' : ¬ (t.IsFixnum i ∧ t.IsFixnum j ∧ t.IsFixnum (f i j)) :=
      fun h => hsmall ⟨h.1, h.2.1⟩
    simp only [makeArith, areSmall_ofInt, hsmall, decide_false, Bool.false_eq_true, if_false,
      if_neg hsmall']

theorem bigNeg_ofInt : bigNeg t (ofInt t i) =
    if t.IsFixnum i then .done (ofInt t (-i))
    else Prim.neg (ofInt t i) (reserve t (ofInt t i).numLimbs 1) := by
  by_cases h : t.IsFixnum i
  · simp only [bigNeg, isSmall_ofInt, h, decide_true, if_true, toWord_fixnum h, badObjptrWordTagged_eq,
      negBadIntInf_eq]
    by_cases hbad : i = -t.bound
    · rw [if_pos (by rw [hbad]), hbad, neg_neg]
    · have hneg := (isFixnum_neg_iff h).mpr hbad
      rw [if_neg (by omega), word_two_sub hneg, ofInt_fixnum hneg]
  · simp only [bigNeg, isSmall_ofInt, h, decide_false, Bool.false_eq_true, if_false]

theorem one_le_numLimbs (r : ℤ) : 1 ≤ (ofInt t r).numLimbs := by
  rw [numLimbs_ofInt]
  exact le_max_left 1 _

theorem natAbs_tdiv (i j : ℤ) : (i.tdiv j).natAbs = i.natAbs / j.natAbs := Int.natAbs_tdiv i j

/-- The bound on a quotient of fixnums. -/
theorem isFixnum_tdiv {i j : ℤ} (hi : t.IsFixnum i) (hbad : ¬ (i = -t.bound ∧ j = -1)) :
    t.IsFixnum (i.tdiv j) := by
  have hpos := t.bound_pos
  have hdiv := natAbs_tdiv i j
  unfold Target.IsFixnum at hi ⊢
  obtain h0 | h1 | h2 : j.natAbs = 0 ∨ j.natAbs = 1 ∨ 2 ≤ j.natAbs := by omega
  · rw [h0, Nat.div_zero] at hdiv
    omega
  · obtain rfl | rfl : j = 1 ∨ j = -1 := by omega
    · rwa [Int.tdiv_one]
    · rw [Int.tdiv_neg, Int.tdiv_one]
      omega
  · have := Nat.div_le_div_left (a := i.natAbs) h2 (by omega)
    omega

theorem isFixnum_tmod {i j : ℤ} (hj : t.IsFixnum j) (h0 : j ≠ 0) : t.IsFixnum (i.tmod j) := by
  have hmod := Int.natAbs_tmod i j
  have hlt := Nat.mod_lt i.natAbs (y := j.natAbs) (by omega)
  unfold Target.IsFixnum at hj ⊢
  omega

/-- A number of fewer limbs is smaller. -/
theorem natAbs_lt_of_numLimbs_lt {i j : ℤ} (h : (ofInt t i).numLimbs < (ofInt t j).numLimbs) :
    i.natAbs < j.natAbs := by
  rw [numLimbs_ofInt, numLimbs_ofInt] at h
  have hlt : i.natAbs < t.base ^ limbCount t i := natAbs_lt_pow_limbCount i
  have hle : t.base ^ limbCount t i ≤ j.natAbs := lt_limbCount_iff.mp (by omega)
  omega

theorem bigQuot_zero : bigQuot t (ofInt t i) (ofInt t 0) = .error .div := by
  by_cases hi : t.IsFixnum i
  · simp only [bigQuot, areSmall_ofInt, hi, isFixnum_zero, and_self, decide_true, if_true,
      dropTag_toWord, quotInt]
    rw [if_neg (by omega)]
    rfl
  · have hlimbs : (ofInt t 0).numLimbs = 1 := by rw [numLimbs_ofInt]; simp [limbCount]
    have := one_le_numLimbs (t := t) i
    simp only [bigQuot, areSmall_ofInt, hi, false_and, decide_false, Bool.false_eq_true, if_false, hlimbs]
    rw [if_neg (by omega), if_pos ofInt_zero]

theorem bigRem_zero : bigRem t (ofInt t i) (ofInt t 0) = .error .div := by
  by_cases hi : t.IsFixnum i
  · simp only [bigRem, areSmall_ofInt, hi, isFixnum_zero, and_self, decide_true, if_true,
      dropTag_toWord, remInt]
    rfl
  · have hlimbs : (ofInt t 0).numLimbs = 1 := by rw [numLimbs_ofInt]; simp [limbCount]
    have := one_le_numLimbs (t := t) i
    simp only [bigRem, areSmall_ofInt, hi, false_and, decide_false, Bool.false_eq_true, if_false, hlimbs]
    rw [if_neg (by omega), if_pos ofInt_zero]

variable {i j}

theorem bigQuot_ofInt (h0 : j ≠ 0) : bigQuot t (ofInt t i) (ofInt t j) = .ok
    (if (t.IsFixnum i ∧ t.IsFixnum j) ∨ (ofInt t i).numLimbs < (ofInt t j).numLimbs then
      .done (ofInt t (i.tdiv j))
    else Prim.quot (ofInt t i) (ofInt t j)
      (reserve t ((ofInt t i).numLimbs - (ofInt t j).numLimbs) 2)) := by
  by_cases hsmall : t.IsFixnum i ∧ t.IsFixnum j
  · obtain ⟨hi, hj⟩ := hsmall
    simp only [bigQuot, areSmall_ofInt, hi, hj, and_self, decide_true, if_true, dropTag_toWord, true_or,
      badObjptrInt_eq, negBadIntInf_eq]
    by_cases hbad : i = -t.bound ∧ j = -1
    · rw [if_pos hbad, hbad.1, hbad.2, Int.tdiv_neg, Int.tdiv_one, neg_neg]
    · have hmin : ¬ (i = minInt t ∧ j = -1) := by
        have := t.bound_pos
        unfold Target.IsFixnum at hi
        unfold minInt
        omega
      have hfix := isFixnum_tdiv hi hbad
      rw [if_neg hbad, quotInt, if_neg h0, if_neg hmin, ofInt_fixnum hfix]
      simp only [bind, Except.bind, addTag_fixnum hfix]
  · simp only [bigQuot, areSmall_ofInt, hsmall, decide_false, Bool.false_eq_true, if_false, false_or,
      ofInt_eq_zero_iff, h0]
    by_cases hlt : (ofInt t i).numLimbs < (ofInt t j).numLimbs
    · have hdiv : i.tdiv j = 0 := by
        have := natAbs_lt_of_numLimbs_lt hlt
        rw [← Int.natAbs_eq_zero, natAbs_tdiv, Nat.div_eq_of_lt this]
      rw [if_pos hlt, if_pos hlt, hdiv, ofInt_zero]
    · rw [if_neg hlt, if_neg hlt]

theorem bigRem_ofInt (h0 : j ≠ 0) : bigRem t (ofInt t i) (ofInt t j) = .ok
    (if (t.IsFixnum i ∧ t.IsFixnum j) ∨ (ofInt t i).numLimbs < (ofInt t j).numLimbs then
      .done (ofInt t (i.tmod j))
    else Prim.rem (ofInt t i) (ofInt t j) (reserve t (ofInt t j).numLimbs 1)) := by
  by_cases hsmall : t.IsFixnum i ∧ t.IsFixnum j
  · obtain ⟨hi, hj⟩ := hsmall
    have hmin : ¬ (i = minInt t ∧ j = -1) := by
      have := t.bound_pos
      unfold Target.IsFixnum at hi
      unfold minInt
      omega
    have hfix := isFixnum_tmod (i := i) hj h0
    simp only [bigRem, areSmall_ofInt, hi, hj, and_self, decide_true, if_true, dropTag_toWord, true_or,
      remInt, h0, if_false, hmin, bind, Except.bind, addTag_fixnum hfix, ofInt_fixnum hfix]
  · simp only [bigRem, areSmall_ofInt, hsmall, decide_false, Bool.false_eq_true, if_false, false_or,
      ofInt_eq_zero_iff, h0]
    by_cases hlt : (ofInt t i).numLimbs < (ofInt t j).numLimbs
    · have hmod : i.tmod j = i := by
        have h := natAbs_lt_of_numLimbs_lt hlt
        have hdiv : i.tdiv j = 0 := by rw [← Int.natAbs_eq_zero, natAbs_tdiv, Nat.div_eq_of_lt h]
        have := Int.tmod_add_mul_tdiv i j
        rwa [hdiv, mul_zero, add_zero] at this
      rw [if_pos hlt, if_pos hlt, hmod]
    · rw [if_neg hlt, if_neg hlt]

theorem absInt_fixnum (h : t.IsFixnum i) : absInt t i = .ok (i.natAbs : ℤ) := by
  have hpos := t.bound_pos
  unfold Target.IsFixnum at h
  unfold absInt
  split
  · rw [checked_of_fits (by omega) (by omega)]
    congr 1
    omega
  · congr 1
    omega

/-- The greatest common divisor of fixnums fits in a word. -/
theorem gcd_le_bound (hi : t.IsFixnum i) (hj : t.IsFixnum j) : i.gcd j ≤ t.bound := by
  have hpos := t.bound_pos
  unfold Target.IsFixnum at hi hj
  obtain rfl | h0 := eq_or_ne i 0
  · rw [Int.gcd_zero_left]
    omega
  · have := Int.gcd_le_natAbs_left (a := i) j h0
    omega

theorem bigGcd_ofInt : bigGcd t (ofInt t i) (ofInt t j) = .ok
    (if t.IsFixnum i ∧ t.IsFixnum j then .done (.word (addTag t (i.gcd j)))
    else Prim.gcd (ofInt t i) (ofInt t j)
      (reserve t (max (ofInt t i).numLimbs (ofInt t j).numLimbs) 0)) := by
  have hpos := t.bound_pos
  by_cases hsmall : t.IsFixnum i ∧ t.IsFixnum j
  · obtain ⟨hi, hj⟩ := hsmall
    have hle := gcd_le_bound hi hj
    have hgcd : smallGcd t i.natAbs j.natAbs 1 = .ok (i.gcd j : ℤ) := by
      have hlt : 1 * i.natAbs.gcd j.natAbs < 2 * t.bound := by
        rw [one_mul]
        exact Nat.lt_of_le_of_lt hle (by omega)
      rw [smallGcd_eq _ _ _ hlt, one_mul]
      rfl
    simp only [bigGcd, areSmall_ofInt, hi, hj, and_self, decide_true, if_true, dropTag_toWord,
      absInt_fixnum hi, absInt_fixnum hj, bind, Except.bind, Int.toNat_natCast, hgcd]
  · simp only [bigGcd, areSmall_ofInt, hsmall, decide_false, Bool.false_eq_true, if_false]

theorem makeCompare_ofInt {α : Type} (mpz : Mpz t) {test : ℤ → ℤ → α}
    (hsmall : ∀ i j, test (2 * i + 1) (2 * j + 1) = test i j)
    (hsign : ∀ i j, test (i - j).sign 0 = test i j) :
    makeCompare mpz test (ofInt t i) (ofInt t j) = test i j := by
  by_cases h : t.IsFixnum i ∧ t.IsFixnum j
  · simp only [makeCompare, areSmall_ofInt, h, decide_true, if_true, toWord_fixnum h.1,
      toWord_fixnum h.2, hsmall, and_self]
  · simp only [makeCompare, areSmall_ofInt, h, decide_false, Bool.false_eq_true, if_false, Prim.compare,
      cmpop_ofInt, hsign]

theorem bigAbs_ofInt : bigAbs t (ofInt t i) =
    if t.IsFixnum i ∨ 0 ≤ i then .done (ofInt t i.natAbs)
    else Prim.neg (ofInt t i) (reserve t (ofInt t i).numLimbs 1) := by
  by_cases h : t.IsFixnum i
  · simp only [bigAbs, isSmall_ofInt, h, decide_true, if_true, toWord_fixnum h, badObjptrWordTagged_eq,
      negBadIntInf_eq, true_or]
    have hpos := t.bound_pos
    by_cases hbad : i = -t.bound
    · rw [if_pos (by rw [hbad]), hbad, Int.natAbs_neg, Int.natAbs_natCast]
    · rw [if_neg (by omega)]
      by_cases hneg : i < 0
      · have hfix := (isFixnum_neg_iff h).mpr hbad
        rw [if_pos (by omega), word_two_sub hfix, show (i.natAbs : ℤ) = -i by omega, ofInt_fixnum hfix]
      · rw [if_neg (by omega), show (i.natAbs : ℤ) = i by omega]
  · have hsign : bigIsNeg (ofInt t i) = decide (i < 0) := by
      rw [ofInt_big h, bigIsNeg, toVector, List.headD_cons, signLimb]
      by_cases hneg : i < 0 <;> simp [hneg]
    simp only [bigAbs, isSmall_ofInt, h, decide_false, Bool.false_eq_true, if_false, hsign,
      decide_eq_true_eq, false_or]
    by_cases hneg : i < 0
    · rw [if_pos hneg, if_neg (by omega)]
    · rw [if_neg hneg, if_pos (by omega), show (i.natAbs : ℤ) = i by omega]

theorem makeBitwise_ofInt {smallOp : ℤ → ℤ → ℤ} (bigOp : BigInt → BigInt → ℕ → Reply)
    (hbit : ∀ i j, oneTag (smallOp (2 * i + 1) (2 * j + 1)) = 2 * smallOp i j + 1)
    (hfits : ∀ i j, t.IsFixnum i → t.IsFixnum j → t.IsFixnum (smallOp i j)) :
    makeBitwise t smallOp bigOp (ofInt t i) (ofInt t j) =
      if t.IsFixnum i ∧ t.IsFixnum j then .done (ofInt t (smallOp i j))
      else bigOp (ofInt t i) (ofInt t j)
        (reserve t (max (ofInt t i).numLimbs (ofInt t j).numLimbs) 0) := by
  by_cases hsmall : t.IsFixnum i ∧ t.IsFixnum j
  · obtain ⟨hi, hj⟩ := hsmall
    simp only [makeBitwise, areSmall_ofInt, hi, hj, and_self, decide_true, if_true, toWord_fixnum hi,
      toWord_fixnum hj, hbit, ofInt_fixnum (hfits i j hi hj)]
  · simp only [makeBitwise, areSmall_ofInt, hsmall, decide_false, Bool.false_eq_true, if_false]

theorem bigAndb_ofInt : bigAndb t (ofInt t i) (ofInt t j) =
    if t.IsFixnum i ∧ t.IsFixnum j then .done (ofInt t (i.land j))
    else Prim.andb (ofInt t i) (ofInt t j)
      (reserve t (max (ofInt t i).numLimbs (ofInt t j).numLimbs) 0) := by
  refine makeBitwise_ofInt _ oneTag_land fun i j hi hj => ?_
  rw [isFixnum_iff_mag] at hi hj ⊢
  exact TwosComplement.mag_land_lt hi hj

theorem bigOrb_ofInt : bigOrb t (ofInt t i) (ofInt t j) =
    if t.IsFixnum i ∧ t.IsFixnum j then .done (ofInt t (i.lor j))
    else Prim.orb (ofInt t i) (ofInt t j)
      (reserve t (max (ofInt t i).numLimbs (ofInt t j).numLimbs) 0) := by
  refine makeBitwise_ofInt _ oneTag_lor fun i j hi hj => ?_
  rw [isFixnum_iff_mag] at hi hj ⊢
  exact TwosComplement.mag_lor_lt hi hj

theorem bigXorb_ofInt : bigXorb t (ofInt t i) (ofInt t j) =
    if t.IsFixnum i ∧ t.IsFixnum j then .done (ofInt t (i.xor j))
    else Prim.xorb (ofInt t i) (ofInt t j)
      (reserve t (max (ofInt t i).numLimbs (ofInt t j).numLimbs) 0) := by
  refine makeBitwise_ofInt _ oneTag_xor fun i j hi hj => ?_
  rw [isFixnum_iff_mag] at hi hj ⊢
  exact TwosComplement.mag_xor_lt hi hj

theorem bigNotb_ofInt : bigNotb t (ofInt t i) =
    if t.IsFixnum i then .done (ofInt t i.lnot)
    else Prim.notb (ofInt t i) (reserve t (ofInt t i).numLimbs 0) := by
  by_cases h : t.IsFixnum i
  · have hfix : t.IsFixnum i.lnot := by rwa [isFixnum_iff_mag, TwosComplement.mag_lnot, ← isFixnum_iff_mag]
    simp only [bigNotb, isSmall_ofInt, h, decide_true, if_true, toWord_fixnum h, oneTag_lnot,
      ofInt_fixnum hfix]
  · simp only [bigNotb, isSmall_ofInt, h, decide_false, Bool.false_eq_true, if_false]

end OfInt

end MLton.IntInf
