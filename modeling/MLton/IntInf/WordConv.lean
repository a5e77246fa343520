import MLton.IntInf.Widths

/-!
# IntInf/WordConv — conversions between integers and words

The words of 8, 16, 32 and 64 bits are converted by the same code, with their own operations.  A shift by
the width of a word or more leaves zero, as the compiler folds it.  The checked conversions raise
`Overflow` unless the integer is that of a word; but `zchckToWord` leaves fixnums to the check of *signed*
words (`conversions_exact_iff`).
-/

namespace MLton.IntInf

open BigInt

/-- `Word8`, `Word16`, `Word32` and `Word64`. -/
inductive WordN where
  | word8
  | word16
  | word32
  | word64
  deriving DecidableEq, Repr

/-- `sizeInBits`. -/
def WordN.sizeInBits : WordN → ℕ
  | word8 => 8
  | word16 => 16
  | word32 => 32
  | word64 => 64

theorem WordN.sizeInBits_eq : ∀ other : WordN, other.sizeInBits = 8 ∨ other.sizeInBits = 16 ∨
    other.sizeInBits = 32 ∨ other.sizeInBits = 64
  | word8 => by decide
  | word16 => by decide
  | word32 => by decide
  | word64 => by decide

theorem WordN.sizeInBits_pos (other : WordN) : 0 < other.sizeInBits := by
  have := other.sizeInBits_eq
  omega

/-- A word of that size. -/
abbrev WordN.Word (other : WordN) : Type := BitVec other.sizeInBits

namespace Widths

variable (w : Widths) {other : WordN}

/-! ## From words -/

/-- The `loop` of `make`: the limbs of a word, the least significant first. -/
def wordLimbs (x : other.Word) : List ℕ :=
  if x = 0 then []
  else x.toNat % w.limbs.base :: wordLimbs (x >>> w.limb)
termination_by x.toNat
decreasing_by
  rename_i hne
  have hpos : 0 < x.toNat := Nat.pos_of_ne_zero (fun h0 => hne (BitVec.eq_of_toNat_eq (by simpa using h0)))
  rw [BitVec.toNat_ushiftRight, Nat.shiftRight_eq_div_pow]
  exact Nat.div_lt_self hpos (Nat.one_lt_two_pow (by have := w.limb_eq; omega))

/-- `extdFromWord`, by `make`. -/
def extdFromWord (sextd : Bool) (x : other.Word) : BigInt :=
  let upperBits := x.sshiftRight (w.objptr - 2)
  if w.objptr > other.sizeInBits ∨ upperBits = 0 ∨ sextd ∧ upperBits = ~~~0 then
    .word (addTag w.words (w.words.word (if sextd then x.toInt else x.toNat)))
  else if sextd ∧ x.toInt < 0 then .vector (1 :: w.wordLimbs (-x))
  else .vector (0 :: w.wordLimbs x)

/-- `zextdFromWord`. -/
def zextdFromWord (x : other.Word) : BigInt := w.extdFromWord false x

/-- `sextdFromWord`. -/
def sextdFromWord (x : other.Word) : BigInt := w.extdFromWord true x

/-! ## To words -/

/-- `datatype ans`: of a vector its sign, whether it has more bits than the word, and its low bits; of a
fixnum the word without the tag. -/
inductive Ans (other : WordN) where
  | big (isneg extra : Bool) (ans : other.Word)
  | small (a : ℤ)

/-- The `loop` of `make`, which puts the limbs `i` to `1` under a word. -/
def orLimbs (v : List ℕ) : ℕ → other.Word → other.Word
  | 0, ans => ans
  | i + 1, ans => orLimbs v i (ans <<< w.limb ||| BitVec.ofNat _ (v.getD (i + 1) 0))

variable (other) in
/-- `chckToWordAux`, by `make`. -/
def chckToWordAux (i : BigInt) : Ans other :=
  if i.isSmall then .small (dropTag i.toWord)
  else
    let v := i.toVector
    let n := v.length
    let isneg := v.getD 0 0 != 0
    if w.limb ≥ other.sizeInBits then
      let limb := v.getD 1 0
      .big isneg (n > 2 || limb >>> other.sizeInBits != 0) (BitVec.ofNat _ limb)
    else
      let limbsPer := other.sizeInBits / w.limb
      .big isneg (n > limbsPer + 1) (w.orLimbs v (min (n - 1) limbsPer) 0)

variable (other) in
/-- `sextdToWord`. -/
def sextdToWord (i : BigInt) : other.Word :=
  match w.chckToWordAux other i with
  | .small a => BitVec.ofInt _ a
  | .big isneg _ ans => if isneg then -ans else ans

variable (other) in
/-- `zextdToWord`. -/
def zextdToWord (i : BigInt) : other.Word := w.sextdToWord other i

variable (other) in
/-- `ObjptrWord.schckToWord`: only a shorter word is checked. -/
def objptrSchckToWord (a : ℤ) : Option other.Word :=
  let res := BitVec.ofInt other.sizeInBits a
  if other.sizeInBits < w.objptr ∧ a ≠ res.toInt then none else some res

variable (other) in
/-- `schckToWord`; no word is `Overflow`. -/
def schckToWord (detectOverflow : Bool) (i : BigInt) : Option other.Word :=
  if !detectOverflow then some (w.sextdToWord other i)
  else match w.chckToWordAux other i with
  | .small a => w.objptrSchckToWord other a
  | .big isneg extra ans =>
      if extra then none
      else if isneg then
        let ans := -ans
        if ans.toInt > 0 then none else some ans
      else if ans.toInt < 0 then none
      else some ans

variable (other) in
/-- `zchckToWord`: the check of a fixnum is the one of `schckToWord`. -/
def zchckToWord (detectOverflow : Bool) (i : BigInt) : Option other.Word :=
  if !detectOverflow then some (w.zextdToWord other i)
  else match w.chckToWordAux other i with
  | .small a => w.objptrSchckToWord other a
  | .big isneg extra ans => if isneg || extra then none else some ans

variable {w}

/-! ## The limbs of a word -/

theorem wordLimbs_eq (x : other.Word) : w.wordLimbs x = Nat.digits w.limbs.base x.toNat := by
  induction x using wordLimbs.induct w with
  | case1 => simp [wordLimbs]
  | case2 x hne ih =>
    have hpos : 0 < x.toNat :=
      Nat.pos_of_ne_zero (fun h0 => hne (BitVec.eq_of_toNat_eq (by simpa using h0)))
    rw [wordLimbs, if_neg hne, ih, Nat.digits_def' w.limbs.one_lt_base hpos, BitVec.toNat_ushiftRight,
      Nat.shiftRight_eq_div_pow]
    rfl

/-! ## The test for a fixnum, by the upper bits -/

theorem toInt_sshiftRight_eq_iff {n s : ℕ} {x : BitVec n} {k : ℤ} :
    (x.sshiftRight s).toInt = k ↔ k * 2 ^ s ≤ x.toInt ∧ x.toInt < (k + 1) * 2 ^ s := by
  have hpos : (0 : ℤ) < 2 ^ s := by positivity
  rw [BitVec.toInt_sshiftRight, Int.shiftRight_eq_div_pow, Nat.cast_pow, Nat.cast_ofNat,
    ← Int.le_ediv_iff_mul_le hpos, ← Int.ediv_lt_iff_lt_mul hpos]
  omega

theorem sshiftRight_eq_zero_iff {n s : ℕ} {x : BitVec n} :
    x.sshiftRight s = 0 ↔ 0 ≤ x.toInt ∧ x.toInt < 2 ^ s := by
  rw [← BitVec.toInt_inj, show (0 : BitVec n).toInt = 0 from BitVec.toInt_zero, toInt_sshiftRight_eq_iff]
  simp

theorem sshiftRight_eq_ones_iff {n s : ℕ} (hn : 0 < n) {x : BitVec n} :
    x.sshiftRight s = ~~~0 ↔ -2 ^ s ≤ x.toInt ∧ x.toInt < 0 := by
  have hones : (~~~0 : BitVec n).toInt = -1 := by
    rw [show (0 : BitVec n) = 0#n from rfl, BitVec.not_zero, BitVec.toInt_allOnes, if_pos hn]
  rw [← BitVec.toInt_inj, hones, toInt_sshiftRight_eq_iff]
  simp

theorem bound_eq : (w.words.bound : ℤ) = 2 ^ (w.objptr - 2) := by
  simp [Target.bound, words]

/-- The integer that `extdFromWord` makes of a word. -/
def extd (sextd : Bool) (x : other.Word) : ℤ := if sextd then x.toInt else x.toNat

theorem two_pow_sizeInBits (other : WordN) : 2 ^ other.sizeInBits = 2 * 2 ^ (other.sizeInBits - 1) := by
  rw [← pow_succ', Nat.sub_add_cancel other.sizeInBits_pos]

/-- The two readings of a word. -/
theorem toInt_cases (x : other.Word) :
    (x.toNat < 2 ^ (other.sizeInBits - 1) ∧ x.toInt = x.toNat) ∨
      2 ^ (other.sizeInBits - 1) ≤ x.toNat ∧ x.toNat < 2 * 2 ^ (other.sizeInBits - 1) ∧
        x.toInt = x.toNat - (2 * 2 ^ (other.sizeInBits - 1) : ℕ) := by
  have hlt := x.isLt
  have hcond := BitVec.toInt_eq_toNat_cond x
  rw [two_pow_sizeInBits] at hlt hcond
  split at hcond
  · exact .inl ⟨by omega, hcond⟩
  · exact .inr ⟨by omega, hlt, hcond⟩

theorem isFixnum_extd_iff (sextd : Bool) (x : other.Word) :
    (w.objptr > other.sizeInBits ∨ x.sshiftRight (w.objptr - 2) = 0 ∨
      sextd ∧ x.sshiftRight (w.objptr - 2) = ~~~0) ↔ w.words.IsFixnum (extd sextd x) := by
  rw [sshiftRight_eq_zero_iff, sshiftRight_eq_ones_iff other.sizeInBits_pos, Target.IsFixnum, bound_eq, extd]
  have hcases := toInt_cases x
  have hn := other.sizeInBits_eq
  have hobjptr := w.objptr_eq
  obtain hlong | hshort := lt_or_ge other.sizeInBits w.objptr
  · have hle : 2 ^ (other.sizeInBits - 1 + 1) ≤ 2 ^ (w.objptr - 2) :=
      Nat.pow_le_pow_right (by omega) (by omega)
    rw [pow_succ'] at hle
    zify at hcases hle
    generalize (2 : ℤ) ^ (other.sizeInBits - 1) = q at hcases hle
    generalize (2 : ℤ) ^ (w.objptr - 2) = p at hle ⊢
    cases sextd <;> simp only [hlong, true_or, true_iff, if_true, Bool.false_eq_true, if_false] <;> omega
  · have hle : 2 ^ (w.objptr - 2) ≤ 2 ^ (other.sizeInBits - 1) :=
      Nat.pow_le_pow_right (by omega) (by omega)
    zify at hcases hle
    generalize (2 : ℤ) ^ (other.sizeInBits - 1) = q at hcases hle
    generalize (2 : ℤ) ^ (w.objptr - 2) = p at hle ⊢
    cases sextd <;> simp only [if_true, true_and, Bool.false_eq_true, if_false, false_and, or_false] <;> omega

/-- **A word becomes the canonical integer**, signed or not. -/
theorem extdFromWord_eq (sextd : Bool) (x : other.Word) : w.extdFromWord sextd x = w.ofInt (extd sextd x) := by
  rw [extdFromWord]
  by_cases hfix : w.words.IsFixnum (extd sextd x)
  · rw [if_pos ((isFixnum_extd_iff sextd x).mpr hfix), ofInt_fixnum hfix]
    have hword : w.words.word (extd sextd x) = extd sextd x := by
      unfold Target.IsFixnum at hfix
      exact Target.word_of_lt (by omega) (by omega)
    rw [← addTag_fixnum hfix, ← hword]
    rfl
  · rw [if_neg (fun h => hfix ((isFixnum_extd_iff sextd x).mp h)), ofInt_big hfix]
    have hcases := toInt_cases x
    have hq : 0 < 2 ^ (other.sizeInBits - 1) := Nat.two_pow_pos _
    split
    next hneg =>
      have hmod : (2 * 2 ^ (other.sizeInBits - 1) - x.toNat) % (2 * 2 ^ (other.sizeInBits - 1)) =
          2 * 2 ^ (other.sizeInBits - 1) - x.toNat := Nat.mod_eq_of_lt (by omega)
      have habs : (-x).toNat = (extd sextd x).natAbs := by
        rw [BitVec.toNat_neg, two_pow_sizeInBits, hmod, extd, if_pos hneg.1]
        omega
      rw [wordLimbs_eq, habs, signLimb, if_pos]
      simpa [extd, hneg.1] using hneg.2
    next hpos =>
      have hnonneg : 0 ≤ extd sextd x := by
        cases sextd with
        | false => exact Int.natCast_nonneg _
        | true => simpa [extd] using hpos
      have habs : x.toNat = (extd sextd x).natAbs := by
        cases sextd with
        | false => simp [extd]
        | true =>
          simp only [extd, if_true] at hnonneg ⊢
          omega
      rw [wordLimbs_eq, habs, signLimb, if_neg (by omega)]

/-! ## The limbs put together by `|` -/

theorem ofNat_shiftLeft_or {n k l : ℕ} (h : l < 2 ^ k) (a : ℕ) :
    BitVec.ofNat n a <<< k ||| BitVec.ofNat n l = BitVec.ofNat n (a * 2 ^ k + l) := by
  refine BitVec.eq_of_getLsbD_eq fun j hj => ?_
  simp only [BitVec.getLsbD_or, BitVec.getLsbD_shiftLeft, BitVec.getLsbD_ofNat, hj, decide_true, Bool.true_and]
  rw [Nat.mul_comm, Nat.testBit_two_pow_mul_add _ h]
  obtain hjk | hjk := lt_or_ge j k
  · simp [hjk]
  · have hbit : l.testBit j = false := Nat.testBit_lt_two_pow (h.trans_le (Nat.pow_le_pow_right (by omega) hjk))
    simp [show ¬ j < k by omega, hbit, show j - k < n by omega]

/-- The low `i` limbs, under a word. -/
theorem orLimbs_ofNat {isneg : ℕ} {limbs : List ℕ} (hlt : ∀ limb ∈ limbs, limb < w.limbs.base) :
    ∀ {i : ℕ}, i ≤ limbs.length → ∀ a : ℕ,
      w.orLimbs (isneg :: limbs) i (BitVec.ofNat _ a : other.Word) =
        BitVec.ofNat _ (a * w.limbs.base ^ i + Nat.ofDigits w.limbs.base (limbs.take i))
  | 0, _, a => by simp [orLimbs]
  | i + 1, hi, a => by
    have hget : (isneg :: limbs).getD (i + 1) 0 = limbs[i] := by simp [hi]
    rw [orLimbs, hget, ofNat_shiftLeft_or (k := w.limb) (hlt _ (List.getElem_mem _)), orLimbs_ofNat hlt (by omega),
      List.take_succ_eq_append_getElem (by omega), Nat.ofDigits_append, List.length_take_of_le (by omega),
      Nat.ofDigits_singleton]
    congr 1
    change (a * w.limbs.base + _) * _ + _ = _
    ring

/-! ## The low bits of a vector, and whether it has more -/

/-- The answer for an integer. -/
def ansOfInt (w : Widths) (other : WordN) (i : ℤ) : Ans other :=
  if w.words.IsFixnum i then .small i
  else .big (i < 0) (2 ^ other.sizeInBits ≤ i.natAbs) (BitVec.ofNat _ i.natAbs)

theorem ofNat_eq_of_mod {n a b : ℕ} (h : a % 2 ^ n = b % 2 ^ n) : BitVec.ofNat n a = BitVec.ofNat n b :=
  BitVec.eq_of_toNat_eq (by simpa using h)

/-- Of a limb as wide as the word, the first limb. -/
theorem extra_wide (h : other.sizeInBits ≤ w.limb) (m : ℕ) :
    (decide ((Nat.digits w.limbs.base m).length + 1 > 2) ||
        (m % w.limbs.base) >>> other.sizeInBits != 0) = decide (2 ^ other.sizeInBits ≤ m) := by
  have hle : 2 ^ other.sizeInBits ≤ w.limbs.base := Nat.pow_le_pow_right (by omega) h
  have hlen := Nat.lt_digits_length_iff (k := 1) w.limbs.one_lt_base m
  rw [pow_one] at hlen
  rw [Bool.eq_iff_iff, Bool.or_eq_true, decide_eq_true_eq, decide_eq_true_eq, bne_iff_ne,
    Nat.shiftRight_eq_div_pow, Nat.div_ne_zero_iff]
  obtain hlt | hge := lt_or_ge m w.limbs.base
  · rw [Nat.mod_eq_of_lt hlt]
    have := Nat.two_pow_pos other.sizeInBits
    omega
  · have := hlen.mpr hge
    omega

theorem low_wide (h : other.sizeInBits ≤ w.limb) (m : ℕ) :
    BitVec.ofNat other.sizeInBits (m % w.limbs.base) = BitVec.ofNat other.sizeInBits m :=
  ofNat_eq_of_mod (Nat.mod_mod_of_dvd _ (Nat.pow_dvd_pow 2 h))

/-- A word that is wider than a limb is as wide as some limbs. -/
theorem base_pow (h : w.limb < other.sizeInBits) :
    w.limbs.base ^ (other.sizeInBits / w.limb) = 2 ^ other.sizeInBits := by
  have hdvd : w.limb * (other.sizeInBits / w.limb) = other.sizeInBits := by
    have hn := other.sizeInBits_eq
    obtain hlimb | hlimb := w.limb_eq <;> rw [hlimb] at h ⊢ <;> omega
  rw [Target.base, ← pow_mul]
  exact congrArg (2 ^ ·) hdvd

/-- Of narrower limbs, as many as there are in the word. -/
theorem low_narrow (h : w.limb < other.sizeInBits) (isneg m : ℕ) :
    w.orLimbs (isneg :: Nat.digits w.limbs.base m)
        (min (Nat.digits w.limbs.base m).length (other.sizeInBits / w.limb)) 0 =
      BitVec.ofNat other.sizeInBits m := by
  have hor : w.orLimbs (isneg :: _) _ (BitVec.ofNat _ 0 : other.Word) = _ :=
    orLimbs_ofNat (fun _ => Nat.digits_lt_base w.limbs.one_lt_base (m := m))
      (min_le_left _ (other.sizeInBits / w.limb)) 0
  rw [show (0 : other.Word) = BitVec.ofNat _ 0 from rfl, hor, Nat.zero_mul, Nat.zero_add, min_comm,
    ← List.take_eq_take_min, ← Nat.self_mod_pow_eq_ofDigits_take _ _ w.limbs.one_lt_base, base_pow h]
  exact ofNat_eq_of_mod (Nat.mod_mod _ _)

theorem chckToWordAux_vector (isneg : ℕ) (limbs : List ℕ) :
    w.chckToWordAux other (.vector (isneg :: limbs)) =
      if w.limb ≥ other.sizeInBits then
        .big (isneg != 0) (decide (limbs.length + 1 > 2) || limbs.headD 0 >>> other.sizeInBits != 0)
          (BitVec.ofNat _ (limbs.headD 0))
      else .big (isneg != 0) (decide (limbs.length + 1 > other.sizeInBits / w.limb + 1))
        (w.orLimbs (isneg :: limbs) (min limbs.length (other.sizeInBits / w.limb)) 0) := by
  cases limbs <;> rfl

/-- **The answer of the auxiliary function**, for an integer. -/
theorem chckToWordAux_ofInt (i : ℤ) : w.chckToWordAux other (w.ofInt i) = w.ansOfInt other i := by
  rw [ansOfInt]
  by_cases hfix : w.words.IsFixnum i
  · rw [ofInt_fixnum hfix, chckToWordAux, if_pos (isSmall_fixnum i), if_pos hfix, toWord, dropTag_fixnum]
  · have hm : 0 < i.natAbs := Int.natAbs_pos.mpr (fun h0 => hfix (h0 ▸ isFixnum_zero))
    have hsign : (signLimb i != 0) = decide (i < 0) := by
      unfold signLimb
      split <;> simp [*]
    rw [ofInt_big hfix, if_neg hfix, chckToWordAux_vector, hsign]
    split
    next hwide =>
      have hhead : (Nat.digits w.limbs.base i.natAbs).headD 0 = i.natAbs % w.limbs.base := by
        rw [Nat.digits_def' w.limbs.one_lt_base hm]
        rfl
      rw [hhead, extra_wide hwide, low_wide hwide]
    next hnarrow =>
      have hlt : w.limb < other.sizeInBits := by omega
      have hlen := Nat.lt_digits_length_iff (k := other.sizeInBits / w.limb) w.limbs.one_lt_base i.natAbs
      rw [base_pow hlt] at hlen
      rw [low_narrow hlt]
      simp only [gt_iff_lt, Nat.add_lt_add_iff_right, hlen]

/-! ## What the conversions answer -/

/-- The integers of signed words. -/
def FitsSigned (other : WordN) (i : ℤ) : Prop :=
  -2 ^ (other.sizeInBits - 1) ≤ i ∧ i ≤ 2 ^ (other.sizeInBits - 1) - 1

/-- The integers of unsigned words. -/
def FitsUnsigned (other : WordN) (i : ℤ) : Prop := 0 ≤ i ∧ i ≤ 2 ^ other.sizeInBits - 1

instance (other : WordN) (i : ℤ) : Decidable (FitsSigned other i) := inferInstanceAs (Decidable (_ ∧ _))

instance (other : WordN) (i : ℤ) : Decidable (FitsUnsigned other i) := inferInstanceAs (Decidable (_ ∧ _))

theorem sextdToWord_ofInt (i : ℤ) : w.sextdToWord other (w.ofInt i) = BitVec.ofInt _ i := by
  rw [sextdToWord, chckToWordAux_ofInt, ansOfInt]
  by_cases hfix : w.words.IsFixnum i
  · rw [if_pos hfix]
  · rw [if_neg hfix]
    simp only [decide_eq_true_eq]
    split
    next hneg =>
      rw [← BitVec.ofInt_natCast, ← BitVec.ofInt_neg]
      congr 1
      omega
    next hpos =>
      rw [← BitVec.ofInt_natCast]
      congr 1
      omega

theorem toInt_ofInt_of {i j : ℤ} (k : ℤ) (hi : i = j + k * 2 ^ other.sizeInBits) (hj : FitsSigned other j) :
    (BitVec.ofInt other.sizeInBits i).toInt = j := by
  have hpow := two_pow_sizeInBits other
  have hpos := Nat.two_pow_pos other.sizeInBits
  obtain ⟨hlo, hhi⟩ := hj
  zify at hpow
  rw [BitVec.toInt_ofInt, Int.bmod_eq_iff hpos]
  refine ⟨?_, ?_, -k, ?_⟩ <;> push_cast
  · omega
  · omega
  · rw [hi]
    ring

theorem toInt_ofInt_eq_iff {i : ℤ} : (BitVec.ofInt other.sizeInBits i).toInt = i ↔ FitsSigned other i := by
  constructor
  · intro h
    have hcases := toInt_cases (BitVec.ofInt other.sizeInBits i)
    rw [h] at hcases
    zify at hcases
    unfold FitsSigned
    omega
  · exact toInt_ofInt_of 0 (by simp)

/-- A fixnum is checked as a signed word. -/
theorem objptrSchckToWord_eq {i : ℤ} (hfix : w.words.IsFixnum i) :
    w.objptrSchckToWord other i = if FitsSigned other i then some (BitVec.ofInt _ i) else none := by
  simp only [objptrSchckToWord, ne_eq, eq_comm (a := i), toInt_ofInt_eq_iff]
  obtain hlong | hshort := lt_or_ge other.sizeInBits w.objptr
  · by_cases hfits : FitsSigned other i <;> simp [hlong, hfits]
  · have hle : 2 ^ (w.objptr - 2) ≤ 2 ^ (other.sizeInBits - 1) :=
      Nat.pow_le_pow_right (by omega) (by omega)
    have hfits : FitsSigned other i := by
      rw [Target.IsFixnum, bound_eq] at hfix
      zify at hle
      unfold FitsSigned
      omega
    simp [hfits]

/-- **`schckToWord` is exact.** -/
theorem schckToWord_ofInt (i : ℤ) :
    w.schckToWord other true (w.ofInt i) = if FitsSigned other i then some (BitVec.ofInt _ i) else none := by
  rw [schckToWord, chckToWordAux_ofInt, ansOfInt]
  by_cases hfix : w.words.IsFixnum i
  · rw [if_pos hfix]
    exact objptrSchckToWord_eq hfix
  rw [if_neg hfix]
  simp only [Bool.not_true, Bool.false_eq_true, if_false, decide_eq_true_eq]
  have hpow := two_pow_sizeInBits other
  have hq := Nat.two_pow_pos (other.sizeInBits - 1)
  zify at hpow hq
  obtain hextra | hlt := le_or_gt (2 ^ other.sizeInBits) i.natAbs
  · have hextra' : (2 : ℤ) ^ other.sizeInBits ≤ i.natAbs := by exact_mod_cast hextra
    rw [if_pos hextra, if_neg]
    unfold FitsSigned
    omega
  have hlt' : (i.natAbs : ℤ) < 2 ^ other.sizeInBits := by exact_mod_cast hlt
  rw [if_neg (by omega)]
  by_cases hneg : i < 0
  · have hans : -BitVec.ofNat other.sizeInBits i.natAbs = BitVec.ofInt _ i := by
      rw [← BitVec.ofInt_natCast, ← BitVec.ofInt_neg]
      congr 1
      omega
    rw [if_pos hneg, hans]
    by_cases hfits : FitsSigned other i
    · rw [if_pos hfits, toInt_ofInt_eq_iff.mpr hfits, if_neg (by omega)]
    · have hwrap : (BitVec.ofInt other.sizeInBits i).toInt = i + 2 ^ other.sizeInBits := by
        refine toInt_ofInt_of (-1) (by ring) ?_
        unfold FitsSigned at hfits ⊢
        omega
      rw [if_neg hfits, hwrap, if_pos (by omega)]
  · have hans : BitVec.ofNat other.sizeInBits i.natAbs = BitVec.ofInt _ i := by
      rw [← BitVec.ofInt_natCast]
      congr 1
      omega
    rw [if_neg hneg, hans]
    by_cases hfits : FitsSigned other i
    · rw [if_pos hfits, toInt_ofInt_eq_iff.mpr hfits, if_neg (by omega)]
    · have hwrap : (BitVec.ofInt other.sizeInBits i).toInt = i - 2 ^ other.sizeInBits := by
        refine toInt_ofInt_of 1 (by ring) ?_
        unfold FitsSigned at hfits ⊢
        omega
      rw [if_neg hfits, hwrap, if_pos (by omega)]

/-- What `zchckToWord` answers: it is exact of integers that are no fixnum. -/
theorem zchckToWord_ofInt (i : ℤ) :
    w.zchckToWord other true (w.ofInt i) =
      if w.words.IsFixnum i then (if FitsSigned other i then some (BitVec.ofInt _ i) else none)
      else if FitsUnsigned other i then some (BitVec.ofInt _ i) else none := by
  rw [zchckToWord, chckToWordAux_ofInt, ansOfInt]
  by_cases hfix : w.words.IsFixnum i
  · rw [if_pos hfix, if_pos hfix]
    exact objptrSchckToWord_eq hfix
  rw [if_neg hfix, if_neg hfix]
  simp only [Bool.not_true, Bool.false_eq_true, if_false, Bool.or_eq_true, decide_eq_true_eq]
  have hcast : (2 : ℤ) ^ other.sizeInBits = (2 ^ other.sizeInBits : ℕ) := by push_cast; rfl
  by_cases hfits : FitsUnsigned other i
  · rw [if_pos hfits, if_neg (by unfold FitsUnsigned at hfits; omega), ← BitVec.ofInt_natCast]
    congr 2
    unfold FitsUnsigned at hfits
    omega
  · rw [if_neg hfits, if_pos (by unfold FitsUnsigned at hfits; omega)]

/-! ## Exactness -/

/-- What a checked conversion of an integer that fits as `p` says is to answer. -/
def checked (p : WordN → ℤ → Prop) [∀ other i, Decidable (p other i)] (other : WordN) (i : ℤ) :
    Option other.Word :=
  if p other i then some (BitVec.ofInt _ i) else none

theorem ite_some_eq_iff {α : Type} {p q : Prop} [Decidable p] [Decidable q] {a : α} :
    ((if p then some a else none) = if q then some a else none) ↔ (p ↔ q) := by
  by_cases hp : p <;> by_cases hq : q <;> simp [hp, hq]

/-- The fixnums that fit as signed words or as unsigned words but not as both. -/
theorem not_fits_iff {i : ℤ} : ¬ (FitsSigned other i ↔ FitsUnsigned other i) ↔
    -2 ^ (other.sizeInBits - 1) ≤ i ∧ i < 0 ∨ 2 ^ (other.sizeInBits - 1) ≤ i ∧ i < 2 ^ other.sizeInBits := by
  have hpow := two_pow_sizeInBits other
  have hq := Nat.two_pow_pos (other.sizeInBits - 1)
  zify at hpow hq
  unfold FitsSigned FitsUnsigned
  omega

theorem schckToWord_iff (detectOverflow : Bool) (i : ℤ) :
    w.schckToWord other detectOverflow (w.ofInt i) = checked FitsSigned other i ↔
      detectOverflow = true ∨ FitsSigned other i := by
  cases detectOverflow with
  | false =>
    rw [schckToWord, sextdToWord_ofInt]
    simp [checked]
  | true =>
    rw [schckToWord_ofInt]
    simp [checked]

theorem zchckToWord_iff (detectOverflow : Bool) (i : ℤ) :
    w.zchckToWord other detectOverflow (w.ofInt i) = checked FitsUnsigned other i ↔
      if detectOverflow then
        ¬ (w.words.IsFixnum i ∧ (-2 ^ (other.sizeInBits - 1) ≤ i ∧ i < 0 ∨
          2 ^ (other.sizeInBits - 1) ≤ i ∧ i < 2 ^ other.sizeInBits))
      else FitsUnsigned other i := by
  cases detectOverflow with
  | false =>
    rw [zchckToWord, zextdToWord, sextdToWord_ofInt]
    simp [checked]
  | true =>
    rw [zchckToWord_ofInt, checked, ← not_fits_iff, if_pos rfl]
    by_cases hfix : w.words.IsFixnum i
    · rw [if_pos hfix, ite_some_eq_iff]
      simp [hfix]
    · simp [hfix]

/-- **The conversions are exact but `zchckToWord` of fixnums.**  The checked ones are exact only of the
integers that fit if overflow is not detected; `zchckToWord` takes a fixnum as a signed word, so that it
accepts the negative ones and rejects those of the upper half. -/
theorem conversions_exact_iff (w : Widths) (other : WordN) (detectOverflow : Bool) :
    (∀ i, w.schckToWord other detectOverflow (w.ofInt i) = checked FitsSigned other i ↔
      detectOverflow = true ∨ FitsSigned other i) ∧
    (∀ i, w.zchckToWord other detectOverflow (w.ofInt i) = checked FitsUnsigned other i ↔
      if detectOverflow then
        ¬ (w.words.IsFixnum i ∧ (-2 ^ (other.sizeInBits - 1) ≤ i ∧ i < 0 ∨
          2 ^ (other.sizeInBits - 1) ≤ i ∧ i < 2 ^ other.sizeInBits))
      else FitsUnsigned other i) ∧
    (∀ i, w.sextdToWord other (w.ofInt i) = BitVec.ofInt _ i) ∧
    (∀ i, w.zextdToWord other (w.ofInt i) = BitVec.ofInt _ i) ∧
    (∀ x : other.Word, w.sextdFromWord x = w.ofInt x.toInt) ∧
    (∀ x : other.Word, w.zextdFromWord x = w.ofInt x.toNat) ∧
    (∀ x : other.Word, w.sextdToWord other (w.sextdFromWord x) = x) ∧
    ∀ x : other.Word, w.zextdToWord other (w.zextdFromWord x) = x := by
  have hsextd (x : other.Word) : w.sextdFromWord x = w.ofInt x.toInt := extdFromWord_eq true x
  have hzextd (x : other.Word) : w.zextdFromWord x = w.ofInt x.toNat := extdFromWord_eq false x
  refine ⟨schckToWord_iff detectOverflow, zchckToWord_iff detectOverflow, sextdToWord_ofInt, sextdToWord_ofInt,
    hsextd, hzextd, fun x => ?_, fun x => ?_⟩
  · rw [hsextd, sextdToWord_ofInt, BitVec.ofInt_toInt]
  · rw [hzextd, zextdToWord, sextdToWord_ofInt, BitVec.ofInt_natCast, BitVec.ofNat_toNat, BitVec.setWidth_eq]

/-- `zchckToWord8` accepts `~1` and rejects `200`. -/
theorem zchckToWord8_fixnums :
    wide.zchckToWord .word8 true (wide.ofInt (-1)) = some 255 ∧ checked FitsUnsigned .word8 (-1) = none ∧
      wide.zchckToWord .word8 true (wide.ofInt 200) = none ∧ checked FitsUnsigned .word8 200 = some 200 := by
  decide +kernel

end Widths

end MLton.IntInf
