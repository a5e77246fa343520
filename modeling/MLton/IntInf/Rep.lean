import Mathlib.Data.Nat.Digits.Lemmas
import MLton.Lib.TwosComplement

/-!
# IntInf/Rep — the two representations of integers

An `IntInf.int` is a word whose low bit is set, a *fixnum*, or a pointer to a vector of a sign limb and
the limbs of the magnitude.  An integer has one canonical representation, `ofInt` (`canonical_iff`): the
fixnum if it fits.

A word of the machine is given by the integer it stands for as a signed one; the bitwise operations of
words are then those of two's complement integers.
-/

namespace MLton.IntInf

/-- What depends on the machine: the bits of an object pointer and of a limb, and the bytes that objects
are aligned to, of a header, and in front of a sequence. -/
structure Target where
  objptr : ℕ
  limb : ℕ
  align : ℕ
  header : ℕ
  metaData : ℕ
  objptr_eq : objptr = 32 ∨ objptr = 64
  limb_eq : limb = 32 ∨ limb = 64
  objptr_le : objptr ≤ limb
  align_eq : align = 4 ∨ align = 8
  /-- The counter, the length and the header. -/
  metaData_eq : objptr = limb → metaData = 3 * (objptr / 8)

namespace Target

variable (t : Target)

/-- The base of limbs. -/
def base : ℕ := 2 ^ t.limb

/-- The first integer that is no fixnum. -/
def bound : ℕ := 2 ^ (t.objptr - 2)

/-- The fixnums are the integers of two bits less than an object pointer. -/
def IsFixnum (i : ℤ) : Prop := -t.bound ≤ i ∧ i < t.bound

instance (i : ℤ) : Decidable (t.IsFixnum i) := inferInstanceAs (Decidable (_ ∧ _))

/-- The word of an object pointer's size that an integer is cut to, read as signed. -/
def word (i : ℤ) : ℤ := i.bmod (2 ^ t.objptr)

variable {t}

theorem one_lt_base : 1 < t.base := Nat.one_lt_two_pow (by have := t.limb_eq; omega)

theorem base_pos : 0 < t.base := Nat.zero_lt_of_lt one_lt_base

theorem bound_pos : 0 < t.bound := Nat.two_pow_pos _

theorem one_lt_bound : 1 < t.bound := Nat.one_lt_two_pow (by have := t.objptr_eq; omega)

theorem two_pow_objptr : 2 ^ t.objptr = 4 * t.bound := by
  have h : t.objptr = t.objptr - 2 + 2 := by have := t.objptr_eq; omega
  rw [bound, h, Nat.pow_add]
  simp [Nat.mul_comm]

theorem four_bound_le_base : 4 * t.bound ≤ t.base := by
  rw [← two_pow_objptr]
  exact Nat.pow_le_pow_right (by omega) t.objptr_le

theorem word_eq {i j : ℤ} (k : ℤ) (hi : i = j + k * (4 * t.bound)) (hlo : -(2 * t.bound) ≤ j)
    (hhi : j < 2 * t.bound) : t.word i = j := by
  have hpos := bound_pos (t := t)
  rw [word, two_pow_objptr, Int.bmod_eq_iff (by omega)]
  refine ⟨?_, ?_, k * -1, ?_⟩ <;> push_cast
  · omega
  · omega
  · rw [hi]
    ring

theorem word_of_lt {i : ℤ} (hlo : -(2 * t.bound) ≤ i) (hhi : i < 2 * t.bound) : t.word i = i :=
  word_eq 0 (by simp) hlo hhi

end Target

/-- Object pointers and limbs of 64 bits. -/
def Target.bits64 : Target where
  objptr := 64
  limb := 64
  align := 8
  header := 8
  metaData := 24
  objptr_eq := .inr rfl
  limb_eq := .inr rfl
  objptr_le := le_rfl
  align_eq := .inr rfl
  metaData_eq _ := rfl

/-! ## Tags -/

section Tags

variable (t : Target)

/-- `dropTag`: the shift is arithmetic. -/
def dropTag (w : ℤ) : ℤ := w / 2

/-- `addTag`. -/
def addTag (w : ℤ) : ℤ := Int.lor (t.word (2 * w)) 1

/-- `oneTag`. -/
def oneTag (w : ℤ) : ℤ := Int.lor w 1

/-- `sameSignBit`. -/
def sameSignBit (lhs rhs : ℤ) : Bool := 0 ≤ Int.xor lhs rhs

variable {t}

theorem oneTag_bit (b : Bool) (i : ℤ) : oneTag (Int.bit b i) = 2 * i + 1 := by
  have h := Int.lor_bit b i true 0
  rw [TwosComplement.lor_zero, Bool.or_true, Int.bit_val, Int.bit_val] at h
  simpa [oneTag, Int.bit_val] using h

theorem dropTag_fixnum (i : ℤ) : dropTag (2 * i + 1) = i := by
  unfold dropTag
  omega

theorem addTag_eq {i j : ℤ} (k : ℤ) (hi : i = j + k * (2 * t.bound)) (hlo : -t.bound ≤ j)
    (hhi : j < t.bound) : addTag t i = 2 * j + 1 := by
  have hword : t.word (2 * i) = 2 * j := by
    refine Target.word_eq k ?_ (by omega) (by omega)
    rw [hi]
    ring
  have h := oneTag_bit false j
  rw [Int.bit_val] at h
  simpa [addTag, oneTag, hword] using h

theorem addTag_fixnum {i : ℤ} (h : t.IsFixnum i) : addTag t i = 2 * i + 1 :=
  addTag_eq 0 (by simp) h.1 h.2

theorem sameSignBit_iff {a b : ℤ} : sameSignBit a b = true ↔ (0 ≤ a ↔ 0 ≤ b) := by
  unfold sameSignBit
  cases a <;> cases b <;> simp [Int.xor]

/-- **The overflow test of the fast paths.** Tagging a word keeps its sign bit exactly if the word fits. -/
theorem sameSignBit_addTag_iff {i : ℤ} (hlo : -(2 * t.bound) ≤ i) (hhi : i < 2 * t.bound) :
    sameSignBit (addTag t i) i = true ↔ t.IsFixnum i := by
  rw [sameSignBit_iff]
  by_cases hfix : t.IsFixnum i
  · rw [addTag_fixnum hfix]
    simp only [hfix, iff_true]
    omega
  · simp only [hfix, iff_false]
    unfold Target.IsFixnum at hfix
    by_cases hneg : i < 0
    · rw [addTag_eq (j := i + 2 * t.bound) (-1) (by ring) (by omega) (by omega)]
      omega
    · rw [addTag_eq (j := i - 2 * t.bound) 1 (by ring) (by omega) (by omega)]
      omega

end Tags

/-! ## Representations -/

/-- A representation of an `IntInf.int`. -/
inductive BigInt where
  | word (w : ℤ)
  /-- The sign limb and the limbs of the magnitude, the least significant first. -/
  | vector (v : List ℕ)
  deriving DecidableEq, Repr

namespace BigInt

variable (t : Target)

/-- `isSmall`; a pointer is aligned. -/
def isSmall : BigInt → Bool
  | word w => Int.land w 1 != 0
  | vector _ => false

/-- `areSmall`. -/
def areSmall : BigInt → BigInt → Bool
  | word w, word w' => Int.land (Int.land w w') 1 != 0
  | _, _ => false

/-- `toWord`, of a fixnum. -/
def toWord : BigInt → ℤ
  | word w => w
  | vector _ => 0

/-- `toVector`, of a pointer. -/
def toVector : BigInt → List ℕ
  | word _ => []
  | vector v => v

/-- `numLimbs`. -/
def numLimbs (i : BigInt) : ℕ := if i.isSmall then 1 else i.toVector.length - 1

/-- The constant `zero`. -/
def zero : BigInt := word 1

/-- The constant `one`. -/
def one : BigInt := word 3

/-- The integer that a representation stands for. -/
def value : BigInt → ℤ
  | word w => dropTag w
  | vector [] => 0
  | vector (isneg :: limbs) =>
      let magnitude : ℕ := Nat.ofDigits t.base limbs
      if isneg = 0 then magnitude else -magnitude

/-- **Canonical form**: a tagged fixnum, or a sign limb and a magnitude without leading zero that no
fixnum has. -/
inductive Canonical : BigInt → Prop
  | small {i : ℤ} : t.IsFixnum i → Canonical (word (2 * i + 1))
  | big {isneg : ℕ} {limbs : List ℕ} : isneg ≤ 1 → (∀ limb ∈ limbs, limb < t.base) →
      (∀ h : limbs ≠ [], limbs.getLast h ≠ 0) → ¬ t.IsFixnum (value t (vector (isneg :: limbs))) →
      Canonical (vector (isneg :: limbs))

/-- The sign limb of an integer. -/
def signLimb (i : ℤ) : ℕ := if i < 0 then 1 else 0

/-- The canonical representation of an integer. -/
def ofInt (i : ℤ) : BigInt :=
  if t.IsFixnum i then word (2 * i + 1) else vector (signLimb i :: Nat.digits t.base i.natAbs)

variable {t}

theorem land_fixnum (a b : ℤ) : Int.land (2 * a + 1) (2 * b + 1) = 2 * Int.land a b + 1 := by
  simpa [Int.bit_val] using Int.land_bit true a true b

@[simp] theorem isSmall_fixnum (i : ℤ) : (word (2 * i + 1)).isSmall = true := by
  have h := land_fixnum i 0
  rw [Int.mul_zero, Int.zero_add] at h
  simp only [isSmall, h, bne_iff_ne, ne_eq]
  omega

@[simp] theorem areSmall_fixnums (i j : ℤ) : areSmall (word (2 * i + 1)) (word (2 * j + 1)) = true := by
  have h := land_fixnum (Int.land i j) 0
  rw [Int.mul_zero, Int.zero_add] at h
  simp only [areSmall, land_fixnum, h, bne_iff_ne, ne_eq]
  omega

theorem ofInt_fixnum {i : ℤ} (h : t.IsFixnum i) : ofInt t i = word (2 * i + 1) := if_pos h

theorem ofInt_big {i : ℤ} (h : ¬ t.IsFixnum i) :
    ofInt t i = vector (signLimb i :: Nat.digits t.base i.natAbs) := if_neg h

theorem isFixnum_zero : t.IsFixnum 0 := by
  have := t.bound_pos
  unfold Target.IsFixnum
  omega

theorem ofInt_zero : ofInt t 0 = zero := ofInt_fixnum isFixnum_zero

theorem ofInt_one : ofInt t 1 = one := by
  have := t.one_lt_bound
  refine ofInt_fixnum ?_
  unfold Target.IsFixnum
  omega

theorem value_signLimb (i : ℤ) : value t (vector (signLimb i :: Nat.digits t.base i.natAbs)) = i := by
  by_cases h : i < 0
  · simp only [value, signLimb, h, if_true, Nat.one_ne_zero, if_false, Nat.ofDigits_digits]
    omega
  · simp only [value, signLimb, h, if_true, if_false, Nat.ofDigits_digits]
    omega

@[simp] theorem value_ofInt (i : ℤ) : value t (ofInt t i) = i := by
  by_cases h : t.IsFixnum i
  · rw [ofInt_fixnum h, value, dropTag_fixnum]
  · rw [ofInt_big h, value_signLimb]

theorem ofInt_injective : Function.Injective (ofInt t) := fun i j h => by
  rw [← value_ofInt (t := t) i, h, value_ofInt]

theorem canonical_ofInt (i : ℤ) : Canonical t (ofInt t i) := by
  by_cases h : t.IsFixnum i
  · rw [ofInt_fixnum h]
    exact .small h
  · rw [ofInt_big h]
    refine .big ?_ (fun limb hlimb => Nat.digits_lt_base t.one_lt_base hlimb) ?_ ?_
    · unfold signLimb
      split <;> omega
    · intro hne
      exact Nat.getLast_digit_ne_zero t.base (fun h0 => hne (by simp [h0]))
    · rwa [value_signLimb]

/-- A sign limb and a magnitude without leading zero are those of the integer that they stand for. -/
theorem signLimb_digits {isneg : ℕ} {limbs : List ℕ} (hneg : isneg ≤ 1) (hlt : ∀ limb ∈ limbs, limb < t.base)
    (hlast : ∀ h : limbs ≠ [], limbs.getLast h ≠ 0) (hne : value t (vector (isneg :: limbs)) ≠ 0) :
    signLimb (value t (vector (isneg :: limbs))) ::
      Nat.digits t.base (value t (vector (isneg :: limbs))).natAbs = isneg :: limbs := by
  have hdigits : Nat.digits t.base (Nat.ofDigits t.base limbs) = limbs :=
    Nat.digits_ofDigits _ t.one_lt_base _ hlt hlast
  have hpos : Nat.ofDigits t.base limbs ≠ 0 := by
    intro h0
    exact hne (by simp [value, h0])
  obtain rfl | rfl : isneg = 0 ∨ isneg = 1 := by omega
  · simp [value, signLimb, hdigits]
  · simp only [value, signLimb, Nat.one_ne_zero, if_false, Int.natAbs_neg, Int.natAbs_natCast, hdigits]
    rw [if_pos (by omega)]

/-- **The canonical representations are those of the integers.** -/
theorem canonical_iff {r : BigInt} : Canonical t r ↔ ofInt t (value t r) = r := by
  constructor
  · rintro (hfix | ⟨hneg, hlt, hlast, hfix⟩)
    · rw [value, dropTag_fixnum, ofInt_fixnum hfix]
    · rw [ofInt_big hfix, signLimb_digits hneg hlt hlast (fun h0 => hfix (h0 ▸ isFixnum_zero))]
  · intro h
    rw [← h]
    exact canonical_ofInt _

/-! ## Sizes -/

/-- The limbs of the magnitude of an integer. -/
def limbCount (t : Target) (i : ℤ) : ℕ := (Nat.digits t.base i.natAbs).length

theorem limbCount_le_iff {i : ℤ} {n : ℕ} : limbCount t i ≤ n ↔ i.natAbs < t.base ^ n :=
  Nat.digits_length_le_iff t.one_lt_base _

theorem lt_limbCount_iff {i : ℤ} {n : ℕ} : n < limbCount t i ↔ t.base ^ n ≤ i.natAbs :=
  Nat.lt_digits_length_iff t.one_lt_base _

theorem natAbs_lt_pow_limbCount (i : ℤ) : i.natAbs < t.base ^ limbCount t i := limbCount_le_iff.mp le_rfl

theorem limbCount_fixnum {i : ℤ} (h : t.IsFixnum i) : limbCount t i ≤ 1 := by
  have hle := t.four_bound_le_base
  have hpos := t.bound_pos
  rw [limbCount_le_iff, pow_one]
  unfold Target.IsFixnum at h
  omega

theorem limbCount_pos {i : ℤ} (h : i ≠ 0) : 0 < limbCount t i := by
  rw [lt_limbCount_iff, pow_zero]
  omega

theorem numLimbs_ofInt (i : ℤ) : (ofInt t i).numLimbs = max 1 (limbCount t i) := by
  by_cases h : t.IsFixnum i
  · rw [ofInt_fixnum h, numLimbs, if_pos (isSmall_fixnum i)]
    have := limbCount_fixnum h
    omega
  · have hpos := limbCount_pos (t := t) (i := i) (fun h0 => h (h0 ▸ isFixnum_zero))
    rw [ofInt_big h]
    simp only [numLimbs, isSmall, toVector, List.length_cons, Bool.false_eq_true, if_false]
    rw [limbCount] at hpos ⊢
    omega

end BigInt

end MLton.IntInf
