import MLton.IntInf.Widths
import MLton.IntInf.Runtime

/-!
# IntInf/FromRep — which magnitudes are those of fixnums

`fromRep` and `finiIntInfRes` decide, the one in the basis library and the other in the runtime, whether
the limbs of a magnitude are those of a fixnum.  If an object pointer is wider than a limb, both put the
limbs together by `&`, of a word whose low bits are zero and of a limb that has no other bits, so that two
limbs make zero.  They are right of all but two limbs, and of two limbs that happen not to matter
(`fixnums_exact_iff`).
-/

namespace MLton.IntInf

open BigInt

namespace Widths

/-! ## The two decisions -/

/-- `datatype rep`. -/
inductive Rep where
  | big (v : List ℕ)
  | small (i : ℤ)
  deriving DecidableEq, Repr

/-- `rep`. -/
def rep (i : BigInt) : Rep := if i.isSmall then .small (dropTag i.toWord) else .big i.toVector

variable (w : Widths)

/-- `limbsPerObjptr`, `LIMBS_PER_OBJPTR`. -/
def limbsPerObjptr : ℕ := if w.objptr ≤ w.limb then 1 else w.objptr / w.limb

/-- One limb put under a word: the word is shifted, then `andb` where one expects `orb`. -/
def andLimb (mag limb : ℕ) : ℕ := (mag <<< w.limb % 2 ^ w.objptr) &&& limb

/-- The word that `fromRep` makes of the limbs if they are narrow: its `loop` does not call itself. -/
def fromRepMag (v : List ℕ) : ℕ :=
  if 2 < v.length then w.andLimb (v.getD 1 0) (v.getD 2 0) else v.getD 1 0

/-- Whether a vector of one or `limbsPerObjptr` limbs is above the fixnums; one is taken off the magnitude
of a negative integer. -/
def exceedsSmall (v : List ℕ) : Bool :=
  if w.objptr ≤ w.limb then
    let mag := v.getD 1 0
    w.words.bound ≤ if 1 ≤ v.getD 0 0 then (mag + w.limbs.base - 1) % w.limbs.base else mag
  else
    let mag := w.fromRepMag v
    w.words.bound ≤ if 1 ≤ v.getD 0 0 then (mag + 2 ^ w.objptr - 1) % 2 ^ w.objptr else mag

/-- `fromRep`. -/
def fromRep : Rep → Option BigInt
  | .big v =>
      let l := v.length
      if 2 ≤ l ∧ v.getD 0 0 ≤ 1 ∧ 0 < v.getD (l - 1) 0 ∧ (1 + w.limbsPerObjptr < l ∨ w.exceedsSmall v) then
        some (.vector v)
      else none
  | .small i =>
      let wt := addTag w.words i
      if i = dropTag wt then some (.word wt) else none

/-- `finiIntInfRes`, its answer. -/
def finiIntInfRes (res : MpzStruct) : BigInt :=
  let isneg := res.size < 0
  let size := res.size.natAbs
  let vector : BigInt := .vector ((if isneg then 1 else 0) :: res.limbs.take size)
  if size = 0 then .word 1
  else if size ≤ w.limbsPerObjptr then
    if w.objptr ≤ w.limb then
      let limb := res.limbs.headD 0
      let val := if isneg then (limb + w.limbs.base - 1) % w.limbs.base else limb
      if val < w.words.bound then .word (addTag w.words (w.words.word (if isneg then -limb else limb)))
      else vector
    else
      let mag := ((res.limbs.take size).tail).foldl w.andLimb (res.limbs.headD 0)
      let val := if isneg then (mag + 2 ^ w.objptr - 1) % 2 ^ w.objptr else mag
      if val < w.words.bound then .word (addTag w.words (w.words.word (if isneg then -mag else mag)))
      else vector
  else vector

/-! ## What is expected of them -/

/-- A struct whose limbs are those of its magnitude: the most significant one is not zero. -/
structure Normal (m : MpzStruct) : Prop where
  length_eq : m.limbs.length = m.size.natAbs
  lt_base : ∀ limb ∈ m.limbs, limb < w.limbs.base
  getLast_ne : ∀ h : m.limbs ≠ [], m.limbs.getLast h ≠ 0

/-- **The decision of the runtime is exact**: the answer is a fixnum exactly if the value is one, and then
it is the value. -/
def FiniExact (m : MpzStruct) : Prop :=
  ((∃ a, w.finiIntInfRes m = .word a) ↔ w.words.IsFixnum (m.value w.limbs)) ∧
    (w.words.IsFixnum (m.value w.limbs) → w.finiIntInfRes m = .word (2 * m.value w.limbs + 1))

variable {w}

/-! ## Limbs put together by `&` -/

theorem andLimb_eq_zero (h : w.limb < w.objptr) (mag : ℕ) {limb : ℕ} (hlimb : limb < w.limbs.base) :
    w.andLimb mag limb = 0 := by
  obtain rfl := narrow_eq h
  refine Nat.eq_of_testBit_eq fun j => ?_
  simp only [andLimb, narrow, Nat.testBit_and, Nat.testBit_mod_two_pow, Nat.testBit_shiftLeft,
    Nat.zero_testBit]
  obtain hj | hj := lt_or_ge j 32
  · simp [show ¬ j ≥ 32 by omega]
  · have hlt : limb < 2 ^ j := hlimb.trans_le (Nat.pow_le_pow_right (by omega) hj)
    simp [Nat.testBit_lt_two_pow hlt]

theorem bound_narrow : narrow.words.bound = 2 ^ 62 := rfl

theorem base_narrow : narrow.limbs.base = 2 ^ 32 := rfl

theorem limbsPerObjptr_narrow : narrow.limbsPerObjptr = 2 := rfl

theorem limbsPerObjptr_wide (h : w.objptr ≤ w.limb) : w.limbsPerObjptr = 1 := if_pos h

/-! ## `fromRep` -/

theorem isSmall_oneTag (a : ℤ) : isSmall (.word (oneTag a)) = true := by
  obtain ⟨b, i, rfl⟩ : ∃ b i, a = Int.bit b i := ⟨a.bodd, a.div2, a.bit_decomp.symm⟩
  rw [oneTag_bit]
  exact isSmall_fixnum i

/-- **A representation is that of the integer made of it.** -/
theorem rep_of_fromRep {r : Rep} {i : BigInt} (h : w.fromRep r = some i) : rep i = r := by
  cases r with
  | big v =>
    simp only [fromRep, Option.ite_none_right_eq_some, Option.some.injEq] at h
    rw [← h.2]
    rfl
  | small a =>
    simp only [fromRep, Option.ite_none_right_eq_some, Option.some.injEq] at h
    obtain ⟨ha, rfl⟩ := h
    have hsmall : isSmall (.word (addTag w.words a)) = true := isSmall_oneTag (w.words.word (2 * a))
    rw [rep, if_pos hsmall, toWord, ← ha]

/-- The value of a magnitude that is not zero, by its sign. -/
theorem value_neg_iff {t : Target} {isneg : ℕ} {limbs : List ℕ} (h : Nat.ofDigits t.base limbs ≠ 0) :
    value t (.vector (isneg :: limbs)) < 0 ↔ isneg ≠ 0 := by
  simp only [value]
  split <;> omega

theorem natAbs_value {t : Target} (isneg : ℕ) (limbs : List ℕ) :
    (value t (.vector (isneg :: limbs))).natAbs = Nat.ofDigits t.base limbs := by
  simp only [value]
  split <;> omega

/-- Of one wide limb, the test is that of the fixnums. -/
theorem exceedsSmall_wide (h : w.objptr ≤ w.limb) {isneg limb : ℕ} (hpos : limb ≠ 0)
    (hlt : limb < w.limbs.base) :
    w.exceedsSmall [isneg, limb] = true ↔ ¬ w.words.IsFixnum (value w.limbs (.vector [isneg, limb])) := by
  have hmag : Nat.ofDigits w.limbs.base [limb] = limb := Nat.ofDigits_singleton
  have habs := natAbs_value (t := w.limbs) isneg [limb]
  have hneg : value w.limbs (.vector [isneg, limb]) < 0 ↔ isneg ≠ 0 := value_neg_iff (hmag.symm ▸ hpos)
  rw [hmag] at habs
  have hfits := fits_iff (t := w.target h) (i := value w.limbs (.vector [isneg, limb]))
    (by rw [habs]; exact hlt)
  simp only [habs, hneg] at hfits
  change _ ↔ ¬ (w.target h).IsFixnum _
  rw [← hfits, not_lt, exceedsSmall, if_pos h]
  simp only [List.getD_cons_zero, List.getD_cons_succ, Nat.one_le_iff_ne_zero, decide_eq_true_eq]
  rfl

/-- Of a canonical vector, only the fixnum test can fail. -/
theorem fromRep_big_iff {isneg : ℕ} {limbs : List ℕ} (hneg : isneg ≤ 1) (hne : limbs ≠ [])
    (hlast : ∀ h : limbs ≠ [], limbs.getLast h ≠ 0) :
    w.fromRep (.big (isneg :: limbs)) = some (.vector (isneg :: limbs)) ↔
      w.limbsPerObjptr < limbs.length ∨ w.exceedsSmall (isneg :: limbs) = true := by
  have hlen : 0 < limbs.length := List.length_pos_iff.mpr hne
  have hget : (isneg :: limbs).getD limbs.length 0 = limbs.getLast hne := by
    rw [List.getLast_eq_getElem, List.getD_eq_getElem _ _ (by simp), List.getElem_cons, dif_neg (by omega)]
  have hpos := hlast hne
  simp only [fromRep, Option.ite_none_right_eq_some, and_true, List.length_cons, Nat.add_sub_cancel,
    List.getD_cons_zero, hget]
  constructor
  · rintro ⟨-, -, -, hlong | hexc⟩
    · exact .inl (by omega)
    · exact .inr hexc
  · rintro (hlong | hexc)
    · exact ⟨by omega, hneg, by omega, .inl (by omega)⟩
    · exact ⟨by omega, hneg, by omega, .inr hexc⟩

/-- Of narrow limbs, what two make is zero. -/
theorem exceedsSmall_narrow {isneg lo hi : ℕ} (hneg : isneg ≤ 1) (hhi : hi < narrow.limbs.base) :
    narrow.exceedsSmall [isneg, lo, hi] = true ↔ isneg = 1 := by
  have hzero : narrow.andLimb lo hi = 0 := andLimb_eq_zero (by decide) _ hhi
  rw [exceedsSmall, if_neg (by decide)]
  simp only [fromRepMag, List.length_cons, List.getD_cons_succ, List.getD_cons_zero, hzero, bound_narrow]
  obtain rfl | rfl : isneg = 0 ∨ isneg = 1 := by omega
  · simp
  · simp [narrow]

theorem isFixnum_of_one_narrow {isneg limb : ℕ} (hlt : limb < narrow.limbs.base) :
    narrow.words.IsFixnum (value narrow.limbs (.vector [isneg, limb])) := by
  have habs := natAbs_value (t := narrow.limbs) isneg [limb]
  rw [Nat.ofDigits_singleton] at habs
  rw [base_narrow] at hlt
  rw [Target.IsFixnum, bound_narrow]
  omega

/-- **The round trip**, of all but the positive integers of two narrow limbs. -/
theorem fromRep_rep_iff {i : BigInt} (h : w.Canonical i) :
    w.fromRep (rep i) = some i ↔ ¬ (w.limb < w.objptr ∧ ∃ lo hi, i = .vector [0, lo, hi]) := by
  obtain @⟨i, hfix⟩ | @⟨isneg, limbs, hneg, hlt, hlast, hfix⟩ := h
  · have hrep : rep (.word (2 * i + 1)) = .small i := by
      rw [rep, if_pos (isSmall_fixnum i), toWord, dropTag_fixnum]
    simp [hrep, fromRep, addTag_fixnum hfix, dropTag_fixnum]
  · have hne : limbs ≠ [] := by
      rintro rfl
      exact hfix (by simpa [value] using isFixnum_zero)
    change w.fromRep (.big (isneg :: limbs)) = _ ↔ _
    rw [fromRep_big_iff hneg hne hlast]
    obtain hwide | hnarrow := le_or_gt w.objptr w.limb
    · rw [limbsPerObjptr_wide hwide]
      refine iff_of_true ?_ (fun hlost => absurd hlost.1 (by omega))
      rcases limbs with _ | ⟨limb, _ | ⟨_, _⟩⟩
      · exact absurd rfl hne
      · exact .inr ((exceedsSmall_wide hwide (by simpa using hlast) (hlt limb (by simp))).mpr hfix)
      · exact .inl (by simp)
    · obtain rfl := narrow_eq hnarrow
      simp only [hnarrow, true_and, limbsPerObjptr_narrow]
      rcases limbs with _ | ⟨lo, _ | ⟨hi, _ | ⟨_, _⟩⟩⟩
      · exact absurd rfl hne
      · exact absurd (isFixnum_of_one_narrow (hlt lo (by simp))) hfix
      · rw [exceedsSmall_narrow hneg (hlt hi (by simp))]
        simp only [List.length_cons, BigInt.vector.injEq, List.cons.injEq]
        grind
      · simp

/-! ## `finiIntInfRes` -/

/-- A struct is that of its value. -/
theorem Normal.eq_ofInt {m : MpzStruct} (h : w.Normal m) : m = .ofInt w.limbs (m.value w.limbs) := by
  obtain ⟨size, limbs⟩ := m
  have hlen : limbs.length = size.natAbs := h.length_eq
  have hdigits : Nat.digits w.limbs.base (Nat.ofDigits w.limbs.base limbs) = limbs :=
    Nat.digits_ofDigits _ w.limbs.one_lt_base _ h.lt_base h.getLast_ne
  have hzero : Nat.ofDigits w.limbs.base limbs = 0 ↔ size = 0 := by
    rw [← Nat.digits_eq_nil_iff_eq_zero (b := w.limbs.base), hdigits, ← List.length_eq_zero_iff]
    omega
  have hnat : (MpzStruct.value w.limbs ⟨size, limbs⟩).natAbs = Nat.ofDigits w.limbs.base limbs := by
    rw [MpzStruct.value, Int.natAbs_mul, Int.natAbs_natCast, Int.natAbs_sign]
    split
    next h0 => rw [Nat.zero_mul, hzero.mpr h0]
    next => rw [Nat.one_mul]
  have hsign : (MpzStruct.value w.limbs ⟨size, limbs⟩).sign = size.sign := by
    rw [MpzStruct.value, Int.sign_mul, Int.sign_sign]
    obtain rfl | hne := eq_or_ne size 0
    · simp
    · rw [Int.sign_natCast_of_ne_zero (fun h0 => hne (hzero.mp h0)), mul_one]
  rw [MpzStruct.ofInt, limbCount, hnat, hsign, hdigits, hlen, Int.sign_mul_natAbs]

theorem Normal.limbCount_eq {m : MpzStruct} (h : w.Normal m) :
    limbCount w.limbs (m.value w.limbs) = m.limbs.length :=
  congrArg (List.length ∘ MpzStruct.limbs) h.eq_ofInt.symm

/-- The runtime of wide limbs decides as that of a target does. -/
theorem finiIntInfRes_wide (h : w.objptr ≤ w.limb) (m : MpzStruct) :
    w.finiIntInfRes m = MLton.IntInf.finiIntInfRes (w.target h) m := by
  simp only [finiIntInfRes, MLton.IntInf.finiIntInfRes, limbsPerObjptr_wide h, if_pos h]
  by_cases hone : m.size.natAbs ≤ 1
  · simp only [hone, true_and]
    rfl
  · simp only [hone, false_and, if_false]

theorem finiExact_wide (h : w.objptr ≤ w.limb) {m : MpzStruct} (hm : w.Normal m) : w.FiniExact m := by
  have hfini : w.finiIntInfRes m = BigInt.ofInt (w.target h) (m.value w.limbs) := by
    rw [finiIntInfRes_wide h]
    conv_lhs => rw [hm.eq_ofInt]
    exact finiIntInfRes_ofInt (t := w.target h) _
  rw [FiniExact, hfini]
  change (_ ↔ (w.target h).IsFixnum _) ∧ ((w.target h).IsFixnum _ → _)
  by_cases hfix : (w.target h).IsFixnum (m.value w.limbs)
  · rw [BigInt.ofInt_fixnum hfix]
    simp [hfix]
  · rw [BigInt.ofInt_big hfix]
    simp [hfix]

/-- An answer that is the fixnum of the value. -/
theorem FiniExact.of_fixnum {m : MpzStruct} {i : ℤ} (hval : m.value w.limbs = i) (hfix : w.words.IsFixnum i)
    (h : w.finiIntInfRes m = .word (addTag w.words (w.words.word i))) : w.FiniExact m := by
  have hword : w.words.word i = i := by
    unfold Target.IsFixnum at hfix
    exact Target.word_of_lt (by omega) (by omega)
  rw [hword, addTag_fixnum hfix] at h
  rw [FiniExact, h, hval]
  simp [hfix]

/-- An answer that is a vector. -/
theorem finiExact_of_vector {m : MpzStruct} {v : List ℕ} (h : w.finiIntInfRes m = .vector v) :
    w.FiniExact m ↔ ¬ w.words.IsFixnum (m.value w.limbs) := by
  simp [FiniExact, h]

/-- Of one narrow limb, the answer is the fixnum. -/
theorem finiExact_one_narrow {size : ℤ} {limb : ℕ} (hsize : size.natAbs = 1) (hpos : limb ≠ 0)
    (hlt : limb < narrow.limbs.base) : narrow.FiniExact ⟨size, [limb]⟩ := by
  rw [base_narrow] at hlt
  obtain rfl | rfl : size = 1 ∨ size = -1 := by omega
  · refine .of_fixnum (i := limb) (by simp [MpzStruct.value]) ?_ ?_
    · rw [Target.IsFixnum, bound_narrow]
      omega
    · rw [finiIntInfRes]
      simp [limbsPerObjptr_narrow, bound_narrow, show ¬ narrow.objptr ≤ narrow.limb by decide]
      omega
  · refine .of_fixnum (i := -limb) (by simp [MpzStruct.value]) ?_ ?_
    · rw [Target.IsFixnum, bound_narrow]
      omega
    · have hval : (limb + 2 ^ narrow.objptr - 1) % 2 ^ narrow.objptr = limb - 1 := by
        simp only [narrow]
        omega
      rw [finiIntInfRes]
      simp [limbsPerObjptr_narrow, bound_narrow, show ¬ narrow.objptr ≤ narrow.limb by decide, hval]
      omega

/-- Of two narrow limbs, the answer of a positive integer is zero. -/
theorem finiIntInfRes_two_narrow {lo hi : ℕ} (hhi : hi < narrow.limbs.base) :
    narrow.finiIntInfRes ⟨2, [lo, hi]⟩ = .word 1 := by
  have hzero : narrow.andLimb lo hi = 0 := andLimb_eq_zero (by decide) _ hhi
  have htag : addTag narrow.words (narrow.words.word 0) = 1 := by decide
  rw [finiIntInfRes]
  simp [limbsPerObjptr_narrow, bound_narrow, show ¬ narrow.objptr ≤ narrow.limb by decide, hzero, htag]

/-- Of two narrow limbs, the answer of a negative integer is a vector. -/
theorem finiIntInfRes_neg_two_narrow {lo hi : ℕ} (hhi : hi < narrow.limbs.base) :
    narrow.finiIntInfRes ⟨-2, [lo, hi]⟩ = .vector [1, lo, hi] := by
  have hzero : narrow.andLimb lo hi = 0 := andLimb_eq_zero (by decide) _ hhi
  have hval : (2 ^ narrow.objptr - 1) % 2 ^ narrow.objptr = 2 ^ 64 - 1 := by decide
  rw [finiIntInfRes]
  simp [limbsPerObjptr_narrow, bound_narrow, show ¬ narrow.objptr ≤ narrow.limb by decide, hzero, hval]

/-- **The decision of the runtime**, exact but of two narrow limbs. -/
theorem finiExact_iff {m : MpzStruct} (hm : w.Normal m) :
    w.FiniExact m ↔ ¬ (w.limb < w.objptr ∧ m.limbs.length = 2 ∧
      (0 ≤ m.size ∨ w.words.IsFixnum (m.value w.limbs))) := by
  obtain hwide | hnarrow := le_or_gt w.objptr w.limb
  · exact iff_of_true (finiExact_wide hwide hm) (fun hlost => absurd hlost.1 (by omega))
  obtain rfl := narrow_eq hnarrow
  simp only [hnarrow, true_and]
  have hcount := hm.limbCount_eq
  obtain ⟨size, limbs⟩ := m
  obtain ⟨hlen, hlt, hlast⟩ := hm
  match limbs with
  | [] =>
    obtain rfl : size = 0 := by simpa using hlen.symm
    refine iff_of_true (.of_fixnum (i := 0) (by simp [MpzStruct.value]) isFixnum_zero ?_) (by simp)
    decide
  | [limb] =>
    refine iff_of_true (finiExact_one_narrow ?_ (by simpa using hlast) (hlt limb (by simp))) (by simp)
    simpa using hlen.symm
  | [lo, hi] =>
    have hhi := hlt hi (by simp)
    obtain rfl | rfl : size = 2 ∨ size = -2 := by simp at hlen; omega
    · refine iff_of_false ?_ (by simp)
      intro hexact
      rw [FiniExact, finiIntInfRes_two_narrow hhi] at hexact
      have hval : (MpzStruct.value narrow.limbs ⟨2, [lo, hi]⟩) = lo + narrow.limbs.base * hi := by
        rw [MpzStruct.value, Int.sign_eq_one_of_pos (by norm_num)]
        simp [Nat.ofDigits_cons]
      have hpos : hi ≠ 0 := by simpa using hlast
      have hfix := hexact.1.mp ⟨1, rfl⟩
      have hone := hexact.2 hfix
      rw [BigInt.word.injEq, hval, base_narrow] at hone
      omega
    · rw [finiExact_of_vector (finiIntInfRes_neg_two_narrow hhi)]
      simp
  | l₀ :: l₁ :: l₂ :: limbs =>
    refine iff_of_true ?_ (by simp)
    have hsize : 3 ≤ size.natAbs := by simp at hlen; omega
    have hfini : narrow.finiIntInfRes ⟨size, l₀ :: l₁ :: l₂ :: limbs⟩ =
        .vector ((if size < 0 then 1 else 0) :: (l₀ :: l₁ :: l₂ :: limbs).take size.natAbs) := by
      rw [finiIntInfRes, if_neg (by simp only; omega), if_neg (by rw [limbsPerObjptr_narrow]; simp only; omega)]
    have hbig := (lt_limbCount_iff (n := 2)).mp (by rw [hcount]; simp)
    rw [base_narrow] at hbig
    rw [finiExact_of_vector hfini, Target.IsFixnum, bound_narrow]
    omega

/-! ## Exactness -/

/-- **The decisions are exact but of two narrow limbs**: the integer of a positive vector of them is lost on
the way back from its representation; and the runtime answers zero for a positive one, and a vector for a
negative fixnum. -/
theorem fixnums_exact_iff (w : Widths) :
    (∀ i, w.Canonical i →
      (w.fromRep (rep i) = some i ↔ ¬ (w.limb < w.objptr ∧ ∃ lo hi, i = .vector [0, lo, hi]))) ∧
    (∀ r i, w.fromRep r = some i → rep i = r) ∧
    ∀ m, w.Normal m → (w.FiniExact m ↔ ¬ (w.limb < w.objptr ∧ m.limbs.length = 2 ∧
      (0 ≤ m.size ∨ w.words.IsFixnum (m.value w.limbs)))) :=
  ⟨fun _ => fromRep_rep_iff, fun _ _ => rep_of_fromRep, fun _ => finiExact_iff⟩

/-- The three parts at a negative vector of two narrow limbs, a fixnum and a struct of one limb. -/
theorem fixnums_exact_narrow :
    narrow.fromRep (rep (.vector [1, 0, 2 ^ 31])) = some (.vector [1, 0, 2 ^ 31]) ∧
      rep (.word 7) = .small 3 ∧ narrow.FiniExact ⟨-1, [5]⟩ :=
  ⟨((fixnums_exact_iff narrow).1 _ (.big (by decide) (by decide) (by decide) (by decide))).mpr (by simp),
    (fixnums_exact_iff narrow).2.1 _ _ (by decide),
    ((fixnums_exact_iff narrow).2.2 _ ⟨by decide, by decide, by decide⟩).mpr (by simp)⟩

/-- The integer `2 ^ 62` is lost, and the runtime answers zero for it. -/
theorem two_limbs_lost :
    narrow.Canonical (.vector [0, 0, 2 ^ 30]) ∧
      narrow.fromRep (rep (.vector [0, 0, 2 ^ 30])) ≠ some (.vector [0, 0, 2 ^ 30]) ∧
      narrow.Normal ⟨2, [0, 2 ^ 30]⟩ ∧ narrow.finiIntInfRes ⟨2, [0, 2 ^ 30]⟩ = zero ∧
      ¬ narrow.FiniExact ⟨2, [0, 2 ^ 30]⟩ := by
  have hfini : narrow.finiIntInfRes ⟨2, [0, 2 ^ 30]⟩ = zero := by decide
  refine ⟨.big (by decide) (by decide) (by decide) (by decide), by decide, ⟨by decide, by decide, by decide⟩,
    hfini, fun hexact => ?_⟩
  have hfix := hexact.1.mp ⟨1, hfini⟩
  exact absurd hfix (by decide)

end Widths

end MLton.IntInf
