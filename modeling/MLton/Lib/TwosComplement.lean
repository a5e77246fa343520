import Mathlib.Algebra.Order.Ring.Int
import Mathlib.Data.Int.Bitwise

/-!
# Lib/TwosComplement — how large the results of bitwise operations are

An integer in two's complement is a sign and its other bits, which `mag` gives as a natural number:
those of the integer itself, or of its complement if it is negative.  The bitwise operations are
operations of naturals on them, so that a bound `2 ^ k` on the arguments is one on the result.
-/

namespace MLton.TwosComplement

theorem ldiff_le (m n : ℕ) : Nat.ldiff m n ≤ m := by
  have h : Nat.ldiff m n &&& m = Nat.ldiff m n := by
    refine Nat.eq_of_testBit_eq fun i => ?_
    cases hm : m.testBit i <;> simp [Nat.testBit_ldiff, hm]
  exact h ▸ Nat.and_le_right

theorem ldiff_lt_two_pow {m k : ℕ} (n : ℕ) (h : m < 2 ^ k) : Nat.ldiff m n < 2 ^ k :=
  (ldiff_le m n).trans_lt h

/-- The bits of an integer but the sign. -/
def mag : ℤ → ℕ
  | (m : ℕ) => m
  | .negSucc m => m

theorem mag_of_nonneg {i : ℤ} (h : 0 ≤ i) : mag i = i.toNat := by
  obtain ⟨m, rfl⟩ := Int.eq_ofNat_of_zero_le h
  rfl

theorem mag_of_neg {i : ℤ} (h : i < 0) : mag i = (-i - 1).toNat := by
  obtain ⟨m, rfl⟩ := Int.eq_negSucc_of_lt_zero h
  simp only [mag, Int.negSucc_eq]
  omega

theorem mag_lt_iff {i : ℤ} {b : ℕ} : mag i < b ↔ -b ≤ i ∧ i < b := by
  obtain h | h := lt_or_ge i 0
  · rw [mag_of_neg h]
    omega
  · rw [mag_of_nonneg h]
    omega

theorem mag_le_natAbs (i : ℤ) : mag i ≤ i.natAbs := by
  cases i <;> simp [mag]

theorem natAbs_le_mag (i : ℤ) : i.natAbs ≤ mag i + 1 := by
  cases i <;> simp [mag]

@[simp] theorem mag_lnot : ∀ i : ℤ, mag i.lnot = mag i
  | (_ : ℕ) => rfl
  | .negSucc _ => rfl

theorem lnot_eq : ∀ i : ℤ, i.lnot = -i - 1
  | (m : ℕ) => by simp only [Int.lnot, Int.negSucc_eq]; omega
  | .negSucc m => by simp only [Int.lnot, Int.negSucc_eq]; omega

theorem lor_zero : ∀ i : ℤ, i.lor 0 = i
  | (m : ℕ) => congrArg Int.ofNat (Nat.or_zero m)
  | .negSucc m => congrArg Int.negSucc (Nat.eq_of_testBit_eq fun i => by simp [Nat.testBit_ldiff])

/-! ## Identities

Integers with the same bits are equal. -/

section Identities

theorem testBit_of_le {m n : ℕ} (h : m ≤ n) : m.testBit n = false :=
  Nat.testBit_lt_two_pow (m.lt_two_pow_self.trans_le (Nat.pow_le_pow_right Nat.two_pos h))

theorem eq_of_testBit_eq : ∀ {i j : ℤ}, (∀ n, i.testBit n = j.testBit n) → i = j
  | (_ : ℕ), (_ : ℕ), h => congrArg Int.ofNat (Nat.eq_of_testBit_eq h)
  | .negSucc _, .negSucc _, h =>
    congrArg Int.negSucc (Nat.eq_of_testBit_eq fun n => Bool.not_inj (h n))
  | (m : ℕ), .negSucc k, h => by
    have := h (m + k)
    simp [Int.testBit, testBit_of_le] at this
  | .negSucc m, (k : ℕ), h => by
    have := h (m + k)
    simp [Int.testBit, testBit_of_le] at this

theorem testBit_zero (n : ℕ) : (0 : ℤ).testBit n = false := Nat.zero_testBit n

theorem testBit_neg_one (n : ℕ) : (-1 : ℤ).testBit n = true := congrArg Bool.not (Nat.zero_testBit n)

variable (i j : ℤ)

theorem land_comm : i.land j = j.land i :=
  eq_of_testBit_eq fun n => by simp only [Int.testBit_land, Bool.and_comm]

theorem lor_comm : i.lor j = j.lor i :=
  eq_of_testBit_eq fun n => by simp only [Int.testBit_lor, Bool.or_comm]

theorem lxor_comm : i.xor j = j.xor i :=
  eq_of_testBit_eq fun n => by simp only [Int.testBit_lxor, Bool.xor_comm]

theorem land_zero : i.land 0 = 0 :=
  eq_of_testBit_eq fun n => by simp only [Int.testBit_land, testBit_zero, Bool.and_false]

theorem land_neg_one : i.land (-1) = i :=
  eq_of_testBit_eq fun n => by simp only [Int.testBit_land, testBit_neg_one, Bool.and_true]

theorem land_self : i.land i = i :=
  eq_of_testBit_eq fun n => by simp only [Int.testBit_land, Bool.and_self]

theorem lor_neg_one : i.lor (-1) = -1 :=
  eq_of_testBit_eq fun n => by simp only [Int.testBit_lor, testBit_neg_one, Bool.or_true]

theorem lor_self : i.lor i = i :=
  eq_of_testBit_eq fun n => by simp only [Int.testBit_lor, Bool.or_self]

theorem lxor_zero : i.xor 0 = i :=
  eq_of_testBit_eq fun n => by simp only [Int.testBit_lxor, testBit_zero, Bool.xor_false]

theorem lxor_neg_one : i.xor (-1) = i.lnot :=
  eq_of_testBit_eq fun n => by simp only [Int.testBit_lxor, testBit_neg_one, Int.testBit_lnot, Bool.xor_true]

theorem lxor_self : i.xor i = 0 :=
  eq_of_testBit_eq fun n => by simp only [Int.testBit_lxor, testBit_zero, Bool.xor_self]

end Identities

/-! ## Bounds on results -/

section Bounds

variable {i j : ℤ} {k : ℕ}

theorem mag_land_lt (hi : mag i < 2 ^ k) (hj : mag j < 2 ^ k) : mag (i.land j) < 2 ^ k := by
  match i, j, hi, hj with
  | (_ : ℕ), (_ : ℕ), _, hj => exact Nat.and_lt_two_pow _ hj
  | (_ : ℕ), .negSucc n, hi, _ => exact ldiff_lt_two_pow n hi
  | .negSucc m, (_ : ℕ), _, hj => exact ldiff_lt_two_pow m hj
  | .negSucc _, .negSucc _, hi, hj => exact Nat.or_lt_two_pow hi hj

theorem mag_lor_lt (hi : mag i < 2 ^ k) (hj : mag j < 2 ^ k) : mag (i.lor j) < 2 ^ k := by
  match i, j, hi, hj with
  | (_ : ℕ), (_ : ℕ), hi, hj => exact Nat.or_lt_two_pow hi hj
  | (m : ℕ), .negSucc _, _, hj => exact ldiff_lt_two_pow m hj
  | .negSucc _, (n : ℕ), hi, _ => exact ldiff_lt_two_pow n hi
  | .negSucc _, .negSucc _, _, hj => exact Nat.and_lt_two_pow _ hj

theorem mag_xor_lt (hi : mag i < 2 ^ k) (hj : mag j < 2 ^ k) : mag (i.xor j) < 2 ^ k := by
  match i, j, hi, hj with
  | (_ : ℕ), (_ : ℕ), hi, hj => exact Nat.xor_lt_two_pow hi hj
  | (_ : ℕ), .negSucc _, hi, hj => exact Nat.xor_lt_two_pow hi hj
  | .negSucc _, (_ : ℕ), hi, hj => exact Nat.xor_lt_two_pow hi hj
  | .negSucc _, .negSucc _, hi, hj => exact Nat.xor_lt_two_pow hi hj

/-- An *or* has the sign of a negative argument and is no farther from zero. -/
theorem natAbs_lor_lt {b : ℕ} (hb : ∃ k, b = 2 ^ k) (hi : i.natAbs < b) (hj : j.natAbs < b) :
    (i.lor j).natAbs < b := by
  obtain ⟨k, rfl⟩ := hb
  match i, j, hi, hj with
  | (_ : ℕ), (_ : ℕ), hi, hj => exact Nat.or_lt_two_pow hi hj
  | (m : ℕ), .negSucc n, _, hj => exact (Nat.succ_le_succ (ldiff_le n m)).trans_lt hj
  | .negSucc m, (n : ℕ), hi, _ => exact (Nat.succ_le_succ (ldiff_le m n)).trans_lt hi
  | .negSucc m, .negSucc n, hi, _ => exact (Nat.succ_le_succ (Nat.and_le_left)).trans_lt hi

end Bounds

/-! ## Results that need a bit more

The result of a bitwise operation on `k` bits is `-2 ^ k` at the least. -/

section Carry

variable {i j : ℤ} {k : ℕ}

theorem natAbs_land_le (hi : mag i < 2 ^ k) (hj : mag j < 2 ^ k) : (i.land j).natAbs ≤ 2 ^ k :=
  (natAbs_le_mag _).trans (mag_land_lt hi hj)

theorem natAbs_xor_le (hi : mag i < 2 ^ k) (hj : mag j < 2 ^ k) : (i.xor j).natAbs ≤ 2 ^ k :=
  (natAbs_le_mag _).trans (mag_xor_lt hi hj)

theorem natAbs_lnot_le (hi : mag i < 2 ^ k) : i.lnot.natAbs ≤ 2 ^ k :=
  (natAbs_le_mag _).trans (mag_lnot i ▸ hi)

theorem succ_eq_two_pow_iff {m : ℕ} (h : m < 2 ^ k) : m + 1 = 2 ^ k ↔ ∀ n < k, m.testBit n = true := by
  constructor
  · intro heq n hn
    rw [show m = 2 ^ k - 1 by omega, Nat.testBit_two_pow_sub_one, decide_eq_true hn]
  · intro hbits
    have heq : m = 2 ^ k - 1 := by
      refine Nat.eq_of_testBit_eq fun n => ?_
      rw [Nat.testBit_two_pow_sub_one]
      by_cases hn : n < k
      · rw [hbits n hn, decide_eq_true hn]
      · rw [decide_eq_false hn]
        exact Nat.testBit_lt_two_pow (h.trans_le (Nat.pow_le_pow_right (by omega) (by omega)))
    omega

/-- The *and* of negative integers without a common bit. -/
theorem natAbs_land_eq_iff (hi : mag i < 2 ^ k) (hj : mag j < 2 ^ k) :
    (i.land j).natAbs = 2 ^ k ↔
      i < 0 ∧ j < 0 ∧ ∀ n < k, ¬ (i.testBit n = true ∧ j.testBit n = true) := by
  match i, j, hi, hj with
  | (a : ℕ), (b : ℕ), _, hj =>
    have hlt : a &&& b < 2 ^ k := Nat.and_lt_two_pow _ hj
    exact ⟨fun h => absurd h hlt.ne, fun h => absurd h.1 (by omega)⟩
  | (a : ℕ), .negSucc b, hi, _ =>
    exact ⟨fun h => absurd h (ldiff_lt_two_pow b hi).ne, fun h => absurd h.1 (by omega)⟩
  | .negSucc a, (b : ℕ), _, hj =>
    exact ⟨fun h => absurd h (ldiff_lt_two_pow a hj).ne, fun h => absurd h.2.1 (by omega)⟩
  | .negSucc a, .negSucc b, hi, hj =>
    have hor : (a ||| b) < 2 ^ k := Nat.or_lt_two_pow hi hj
    refine (succ_eq_two_pow_iff hor).trans ⟨fun h => ⟨Int.negSucc_lt_zero _, Int.negSucc_lt_zero _, ?_⟩,
      fun h n hn => ?_⟩
    · intro n hn
      have := h n hn
      rw [Nat.testBit_or] at this
      simp only [Int.testBit, Bool.not_eq_true']
      rintro ⟨ha, hb⟩
      simp [ha, hb] at this
    · have := h.2.2 n hn
      simp only [Int.testBit, Bool.not_eq_true'] at this
      rw [Nat.testBit_or]
      cases ha : a.testBit n <;> simp_all

/-- The exclusive *or* of integers of opposite signs that agree in all bits. -/
theorem natAbs_xor_eq_iff (hi : mag i < 2 ^ k) (hj : mag j < 2 ^ k) :
    (i.xor j).natAbs = 2 ^ k ↔ ¬ (i < 0 ↔ j < 0) ∧ ∀ n < k, i.testBit n = j.testBit n := by
  match i, j, hi, hj with
  | (a : ℕ), (b : ℕ), hi, hj =>
    have hlt : a ^^^ b < 2 ^ k := Nat.xor_lt_two_pow hi hj
    exact ⟨fun h => absurd h hlt.ne, fun h => absurd h.1 (by omega)⟩
  | .negSucc a, .negSucc b, hi, hj =>
    have hlt : a ^^^ b < 2 ^ k := Nat.xor_lt_two_pow hi hj
    exact ⟨fun h => absurd h hlt.ne, fun h => absurd h.1 (by omega)⟩
  | (a : ℕ), .negSucc b, hi, hj =>
    have hxor : (a ^^^ b) < 2 ^ k := Nat.xor_lt_two_pow hi hj
    refine (succ_eq_two_pow_iff hxor).trans ⟨fun h => ⟨by omega, ?_⟩, fun h n hn => ?_⟩
    · intro n hn
      have := h n hn
      simpa [Int.testBit, Nat.testBit_xor, Bool.eq_not] using this
    · have := h.2 n hn
      simpa [Int.testBit, Nat.testBit_xor, Bool.eq_not] using this
  | .negSucc a, (b : ℕ), hi, hj =>
    have hxor : (a ^^^ b) < 2 ^ k := Nat.xor_lt_two_pow hi hj
    refine (succ_eq_two_pow_iff hxor).trans ⟨fun h => ⟨by omega, ?_⟩, fun h n hn => ?_⟩
    · intro n hn
      have := h n hn
      simpa [Int.testBit, Nat.testBit_xor, Bool.eq_not] using this
    · have := h.2 n hn
      simpa [Int.testBit, Nat.testBit_xor, Bool.eq_not] using this

/-- The complement of an integer with all bits set. -/
theorem natAbs_lnot_eq_iff (hi : mag i < 2 ^ k) :
    i.lnot.natAbs = 2 ^ k ↔ 0 ≤ i ∧ ∀ n < k, i.testBit n = true := by
  match i, hi with
  | (a : ℕ), hi =>
    exact (succ_eq_two_pow_iff hi).trans ⟨fun h => ⟨by omega, h⟩, fun h => h.2⟩
  | .negSucc a, hi => exact ⟨fun h => absurd h (Nat.ne_of_lt hi), fun h => absurd h.1 (by omega)⟩

end Carry

end MLton.TwosComplement
