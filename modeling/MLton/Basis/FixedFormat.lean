import MLton.Basis.FixedNum

/-!
# Basis/FixedFormat — the text that a buffer is large enough for

What is written so far are the last digits, behind the place of the next one.  A number below `2 ^ bits` has no more
digits than bits, and so every place that is written to is in the buffer.
-/

namespace MLton

open IntInf FixedNum

/-! ## Integers -/

namespace FixedInt

section Format

variable {w : Size} {radix : Radix} {k : ℕ}

theorem two_pow_pred (w : Size) : (2 : ℤ) ^ w.bits = 2 * 2 ^ (w.bits - 1) := by
  cases w <;> norm_num [Size.bits]

/-- Small numbers are integers of every size. -/
theorem sixteen_lt (w : Size) : (16 : ℤ) < 2 ^ (w.bits - 1) := by
  cases w <;> norm_num [Size.bits]

theorem checked_of_inRange {n : ℤ} (h : InRange w n) : checked w n = .ok n := if_pos h

theorem fromInt_toNat (w : Size) (radix : Radix) : fromInt w radix.toNat = .ok (radix.toNat : ℤ) := by
  have := sixteen_lt w
  have := toNat_le_sixteen radix
  exact checked_of_inRange ⟨by omega, by omega⟩

/-- **Negation does not wrap** but at `minInt`. -/
theorem negWrap_eq {n : ℤ} (hlo : -2 ^ (w.bits - 1) < n) (hhi : n < 2 ^ (w.bits - 1)) : negWrap w n = -n := by
  have hpow := two_pow_pred w
  have hcast : ((2 ^ w.bits : ℕ) : ℤ) = 2 * 2 ^ (w.bits - 1) := by
    push_cast
    exact hpow
  rw [negWrap]
  exact Int.bmod_eq_of_le (by omega) (by omega)

theorem rem_neg (w : Size) (radix : Radix) (m : ℕ) :
    rem w (-m) radix.toNat = .ok (-(m % radix.toNat : ℕ)) := by
  have := one_lt_toNat radix
  rw [rem, if_neg (by omega), if_neg (by omega), Int.neg_tmod, ← Int.ofNat_tmod]

theorem quot_neg (w : Size) (radix : Radix) (m : ℕ) :
    quot w (-m) radix.toNat = .ok (-(m / radix.toNat : ℕ)) := by
  have := one_lt_toNat radix
  rw [quot, if_neg (by omega), if_neg (by omega), Int.neg_tdiv, ← Int.ofNat_tdiv]

theorem digitOf_neg (w : Size) (radix : Radix) (m : ℕ) :
    digitOf w radix.toNat (-m) = .ok (IntInf.digitToChar (m % radix.toNat)) := by
  have hlt : m % radix.toNat < radix.toNat := Nat.mod_lt _ (by have := one_lt_toNat radix; omega)
  have hle := toNat_le_sixteen radix
  have hw := sixteen_lt w
  rw [digitOf, rem_neg]
  simp only [Except.bind]
  rw [negWrap_eq (by omega) (by omega), neg_neg]
  exact digitToChar_ok (by omega)

/-- The characters in front of the digits. -/
def signOf (n : ℤ) : List Char := if n < 0 then ['~'] else []

theorem withSign_ok {n : ℤ} {i : ℕ} (buf : Vector Char k) (hk : i < k) (hi : (signOf n).length ≤ i) :
    withSign n i buf = .ok (signOf n ++ buf.toList.drop i) := by
  rw [withSign]
  rw [signOf] at hi ⊢
  split
  · next hn =>
    rw [if_pos hn, List.length_singleton] at hi
    obtain ⟨buf', hupdate, hdrop⟩ := update_ok buf '~' (by omega : i - 1 < k)
    have hpred : ((i : ℤ) - 1) = ((i - 1 : ℕ) : ℤ) := by omega
    rw [hpred, hupdate]
    simp only [Except.bind]
    rw [sliceToEnd_ok _ (by omega), hdrop, Nat.sub_add_cancel hi]
    rfl
  · exact sliceToEnd_ok buf hk.le

/-- **The `loop` of `fmt`** writes the digits of a magnitude in front of those already written. -/
theorem fmtLoop_neg (n : ℤ) (m : ℕ) {i : ℕ} (buf : Vector Char k) (hk : i < k)
    (hi : (signOf n ++ digitsText radix m).length ≤ i + 1) :
    fmtLoop w n radix.toNat (-m) i buf = .ok (signOf n ++ digitsText radix m ++ buf.toList.drop (i + 1)) := by
  induction m using Nat.strong_induction_on generalizing i buf with
  | _ m ih =>
    obtain ⟨buf', hupdate, hdrop⟩ := update_ok buf (IntInf.digitToChar (m % radix.toNat)) hk
    have hwrite : (digitOf w radix.toNat (-m)).bind (update buf i) = .ok buf' := by
      rw [digitOf_neg]
      exact hupdate
    have hdigits := digitsText_eq radix m
    have hbase := one_lt_toNat radix
    rw [fmtLoop]
    split
    · next e h => cases hwrite.symm.trans h
    · next buf₁ h =>
      obtain rfl := Except.ok.inj (hwrite.symm.trans h)
      rw [quot_neg]
      dsimp only
      by_cases hzero : m / radix.toNat = 0
      · rw [if_pos hzero, List.nil_append] at hdigits
        rw [hdigits, List.length_append, List.length_singleton] at hi
        rw [if_pos (by omega), withSign_ok _ hk (by omega), hdrop, hdigits, List.append_assoc]
        rfl
      · rw [if_neg hzero] at hdigits
        rw [hdigits, ← List.append_assoc, List.length_append, List.length_singleton] at hi
        have hpos : i ≠ 0 := by
          rintro rfl
          obtain ⟨-, -, -, hne⟩ := map_digitsText radix (m / radix.toNat)
          have := List.length_pos_of_ne_nil hne
          rw [List.length_append] at hi
          omega
        have hpred : ((i : ℤ) - 1) = ((i - 1 : ℕ) : ℤ) := by omega
        have hlt : m / radix.toNat < m := Nat.div_lt_self (Nat.pos_of_ne_zero fun h0 => hzero (by rw [h0, Nat.zero_div])) hbase
        rw [if_neg (by omega), hpred, ih _ hlt _ (by omega) (by omega), Nat.sub_add_cancel (Nat.pos_of_ne_zero hpos),
          hdrop, hdigits]
        simp

/-- **`fmt`** writes the sign and the digits of an integer, and no place of the buffer is out of bounds. -/
theorem fmt_eq {n : ℤ} (h : InRange w n) (radix : Radix) (buf : Vector Char (maxNumDigits w)) :
    fmt w radix n buf = .ok (signOf n ++ digitsText radix n.natAbs) := by
  have hstart : (if n < 0 then n else negWrap w n) = -(n.natAbs : ℤ) := by
    have hpos := sixteen_lt w
    split
    · omega
    · rw [negWrap_eq (by omega) h.2]
      omega
  have hbits := w.bits_pos
  have hlength : (digitsText radix n.natAbs).length ≤ w.bits := by
    refine length_digitsText_le radix hbits ?_
    have hpow := two_pow_pred w
    have hlo := h.1
    have hhi := h.2
    have hlt : (n.natAbs : ℤ) < 2 ^ w.bits := by
      rw [hpow]
      omega
    exact_mod_cast hlt
  have hsign : (signOf n).length ≤ 1 := by
    rw [signOf]
    split <;> simp
  have hlast : (maxNumDigits w : ℤ) - 1 = (w.bits : ℕ) := by
    rw [maxNumDigits]
    push_cast
    ring
  rw [fmt, fromInt_toNat]
  simp only [Except.bind]
  rw [hstart, hlast, fmtLoop_neg n _ buf (Nat.lt_succ_self _) (by rw [List.length_append]; omega),
    List.drop_eq_nil_of_le (by rw [Vector.length_toList, maxNumDigits]), List.append_nil]

end Format

end FixedInt

/-! ## Words -/

namespace FixedWord

section Format

variable {w : Size} {radix : Radix} {k : ℕ}

theorem sixteen_lt (w : Size) : 16 < 2 ^ w.bits := by
  cases w <;> norm_num [Size.bits]

theorem fromInt_toNat (w : Size) (radix : Radix) : fromInt w radix.toNat = radix.toNat :=
  Nat.mod_eq_of_lt ((toNat_le_sixteen radix).trans_lt (sixteen_lt w))

theorem digitOf_eq (radix : Radix) (m : ℕ) :
    digitOf radix.toNat m = .ok (IntInf.digitToChar (m % radix.toNat)) := by
  have hbase := one_lt_toNat radix
  have hlt : m % radix.toNat < radix.toNat := Nat.mod_lt _ (by omega)
  have hle := toNat_le_sixteen radix
  rw [digitOf, mod, if_neg (by omega)]
  exact digitToChar_ok (by omega)

/-- **The `loop` of `fmt`** writes the digits of a word in front of those already written. -/
theorem fmtLoop_eq (m : ℕ) {i : ℕ} (buf : Vector Char k) (hk : i < k) (hi : (digitsText radix m).length ≤ i + 1) :
    fmtLoop radix.toNat m i buf = .ok (digitsText radix m ++ buf.toList.drop (i + 1)) := by
  induction m using Nat.strong_induction_on generalizing i buf with
  | _ m ih =>
    obtain ⟨buf', hupdate, hdrop⟩ := update_ok buf (IntInf.digitToChar (m % radix.toNat)) hk
    have hwrite : (digitOf radix.toNat m).bind (update buf i) = .ok buf' := by
      rw [digitOf_eq]
      exact hupdate
    have hdigits := digitsText_eq radix m
    have hbase := one_lt_toNat radix
    have hdiv : div m radix.toNat = .ok (m / radix.toNat) := if_neg (by omega)
    rw [fmtLoop]
    split
    · next e h => cases hwrite.symm.trans h
    · next buf₁ h =>
      obtain rfl := Except.ok.inj (hwrite.symm.trans h)
      rw [hdiv]
      dsimp only
      by_cases hzero : m / radix.toNat = 0
      · rw [if_pos hzero, List.nil_append] at hdigits
        rw [if_pos hzero, sliceToEnd_ok _ hk.le, hdrop, hdigits]
        rfl
      · rw [if_neg hzero] at hdigits
        rw [hdigits, List.length_append, List.length_singleton] at hi
        have hpos : i ≠ 0 := by
          rintro rfl
          obtain ⟨-, -, -, hne⟩ := map_digitsText radix (m / radix.toNat)
          have := List.length_pos_of_ne_nil hne
          omega
        have hpred : ((i : ℤ) - 1) = ((i - 1 : ℕ) : ℤ) := by omega
        have hlt : m / radix.toNat < m := Nat.div_lt_self (Nat.pos_of_ne_zero fun h0 => hzero (by rw [h0, Nat.zero_div])) hbase
        rw [if_neg hzero, hpred, ih _ hlt _ (by omega) (by omega), Nat.sub_add_cancel (Nat.pos_of_ne_zero hpos), hdrop,
          hdigits]
        simp

/-- **`fmt`** writes the digits of a word, and no place of the buffer is out of bounds. -/
theorem fmt_eq {n : ℕ} (h : n < 2 ^ w.bits) (radix : Radix) (buf : Vector Char (maxNumDigits w)) :
    fmt w radix n buf = .ok (digitsText radix n) := by
  have hbits := w.bits_pos
  have hlast : (maxNumDigits w : ℤ) - 1 = (w.bits - 1 : ℕ) := by
    rw [maxNumDigits]
    omega
  have hlength := length_digitsText_le radix hbits h
  rw [fmt, fromInt_toNat, hlast, fmtLoop_eq n buf (by rw [maxNumDigits]; omega) (by omega)]
  rw [List.drop_eq_nil_of_le (by rw [Vector.length_toList, maxNumDigits]; omega), List.append_nil]

end Format

end FixedWord

end MLton
