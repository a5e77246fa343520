import MLton.IntInf.Correct

/-!
# IntInf/Space — the bytes reserved for an answer

An operation that calls the runtime reserves bytes from the numbers of limbs of its arguments, and the
runtime moves the frontier past the answer.  `setFrontier_le_iff` says when it stays in what is reserved:
a conjunction, an exclusive or or a complement may be a power of the base, which has one limb more than
its arguments, and the sum that `reserve` computes may not fit in a word.
-/

namespace MLton.IntInf

open BigInt

/-! ## Where the frontier goes -/

section Frontier

variable {t : Target}

theorem base_eq_two_pow (n : ℕ) : t.base ^ n = 2 ^ (t.limb * n) := (Nat.pow_mul 2 t.limb n).symm

/-- The frontier stays aligned, and moves by the bytes of the object, rounded up. -/
theorem alignFrontier_add {frontier : ℕ} (hf : t.align ∣ frontier + t.header) (bytes : ℕ) :
    alignFrontier t (frontier + bytes) = frontier + Runtime.align bytes t.align := by
  unfold alignFrontier Runtime.align
  obtain h | h := t.align_eq <;> rw [h] at hf ⊢ <;> omega

/-- The bytes that `reserve` asks for, before they are cut to a word. -/
def reserveExact (t : Target) (num extra : ℕ) : ℕ :=
  bytesPerMPLimb t * num + (bytesPerMPLimb t * extra + (bytesPerMPLimb t + (t.metaData +
    if t.align = 4 then 3 else 7)))

theorem reserve_eq {num extra : ℕ} (h : reserveExact t num extra < 2 ^ t.limb) :
    reserve t num extra = reserveExact t num extra := Nat.mod_eq_of_lt h

/-- With limbs of 32 bits, the bytes for alignment are enough for one more limb if the object would have
ended unaligned. -/
def Slack (t : Target) (num : ℕ) : Prop := t.limb = 32 ∧ t.align = 8 ∧ num % 2 = 1

/-- The bytes of an object of a given number of limbs, and the bytes reserved. -/
theorem align_le_reserveExact_iff (hw : t.objptr = t.limb) (size num extra : ℕ) :
    Runtime.align (t.metaData + bytesPerMPLimb t * (size + 1)) t.align ≤ reserveExact t num extra ↔
      size ≤ num + extra ∨ size = num + extra + 1 ∧ Slack t (num + extra) := by
  have hmeta := t.metaData_eq hw
  unfold Runtime.align reserveExact Slack bytesPerMPLimb
  obtain hlimb | hlimb := t.limb_eq <;> obtain halign | halign := t.align_eq <;>
    rw [hw, hlimb] at hmeta <;>
    simp only [hmeta, hlimb, halign, Nat.reduceDiv, Nat.reduceMul, Nat.reduceSub, Nat.reduceEqDiff,
      reduceIte, true_and, false_and, and_false, or_false] <;>
    omega

theorem setFrontier_ofInt {frontier : ℕ} (hf : t.align ∣ frontier + t.header) (i : ℤ) :
    setFrontier t frontier (ofInt t i) = frontier +
      if t.IsFixnum i then 0
      else Runtime.align (t.metaData + bytesPerMPLimb t * (limbCount t i + 1)) t.align := by
  by_cases h : t.IsFixnum i
  · rw [ofInt_fixnum h, if_pos h]
    rfl
  · rw [ofInt_big h, if_neg h, setFrontier, Nat.add_assoc, alignFrontier_add hf, List.length_cons]
    rfl

/-- An answer stays in what is reserved exactly if it is a fixnum or has no more limbs than that. -/
theorem setFrontier_le_reserve_iff (hw : t.objptr = t.limb) {frontier : ℕ}
    (hf : t.align ∣ frontier + t.header) (i : ℤ) {num extra : ℕ}
    (h : reserveExact t num extra < 2 ^ t.limb) :
    setFrontier t frontier (ofInt t i) ≤ frontier + reserve t num extra ↔
      t.IsFixnum i ∨ limbCount t i ≤ num + extra ∨
        limbCount t i = num + extra + 1 ∧ Slack t (num + extra) := by
  rw [setFrontier_ofInt hf, reserve_eq h]
  by_cases hfix : t.IsFixnum i
  · simp [hfix]
  · rw [if_neg hfix, Nat.add_le_add_iff_left, align_le_reserveExact_iff hw]
    simp only [hfix, false_or]

end Frontier

/-! ## The calls that spill -/

section Spills

variable (t : Target)

/-- The object of an argument lies in memory, of which at least a page is something else. -/
def InMemory (x : BigInt) : Prop :=
  t.metaData + bytesPerMPLimb t * (x.numLimbs + 1) + 4096 ≤ 2 ^ t.limb

/-- What an operation comes to, of those that call the runtime once at most. -/
def Call.reply : Call BigInt → Option Reply
  | .add x y => some (bigAdd t x y)
  | .sub x y => some (bigSub t x y)
  | .mul x y => some (bigMul t x y)
  | .neg x => some (bigNeg t x)
  | .abs x => some (bigAbs t x)
  | .quot x y => (bigQuot t x y).toOption
  | .rem x y => (bigRem t x y).toOption
  | .gcd x y => (bigGcd t x y).toOption
  | .andb x y => some (bigAndb t x y)
  | .orb x y => some (bigOrb t x y)
  | .xorb x y => some (bigXorb t x y)
  | .notb x => some (bigNotb t x)
  | .lshift x shift => some (bigLshift t x shift)
  | .rashift x shift => some (bigRashift t x shift)
  | _ => none

/-- The bits of the limbs that are reserved for two arguments. -/
def bitsReserved (x y : ℤ) : ℕ := t.limb * max (ofInt t x).numLimbs (ofInt t y).numLimbs

/-- The bits of the arguments make the answer a negative power of the base: two negative integers have no
bit in common, two of opposite signs differ in none, and all bits of one that is not negative are set. -/
def Carries : Call ℤ → Prop
  | .andb x y => x < 0 ∧ y < 0 ∧ ∀ k < bitsReserved t x y, ¬ (x.testBit k = true ∧ y.testBit k = true)
  | .xorb x y => ¬ (x < 0 ↔ y < 0) ∧ ∀ k < bitsReserved t x y, x.testBit k = y.testBit k
  | .notb x => 0 ≤ x ∧ ∀ k < bitsReserved t x x, x.testBit k = true
  | _ => False

/-- The bytes for alignment hold the limb that a call carries into. -/
def CarryFits : Call ℤ → Prop
  | .andb x y | .xorb x y => Slack t (max (ofInt t x).numLimbs (ofInt t y).numLimbs)
  | .notb x => Slack t (ofInt t x).numLimbs
  | _ => True

/-- The bytes that the call asks for do not fit in a word. -/
def Wraps : Call ℤ → Prop
  | .mul x y => 2 ^ t.limb ≤ reserveExact t ((ofInt t x).numLimbs + (ofInt t y).numLimbs) 0
  | .lshift x shift => 2 ^ t.limb ≤ reserveExact t ((ofInt t x).numLimbs + shiftSize t shift) 1
  | _ => False

/-- The call spills: it carries and the limb does not fit, or it wraps. -/
def Spills (c : Call ℤ) : Prop := Carries t c ∧ ¬ CarryFits t c ∨ Wraps t c

/-- The frontier stays in the bytes reserved. -/
def Reply.Fits {t : Target} (mpz : Mpz t) (frontier : ℕ) : Reply → Prop
  | .done _ => True
  | .call c bytes => setFrontier t frontier (c.run mpz) ≤ frontier + bytes

end Spills

/-! ## The limbs of the answers -/

section Limbs

variable {t : Target} {i j : ℤ}

theorem natAbs_lt_pow_numLimbs (i : ℤ) : i.natAbs < t.base ^ (ofInt t i).numLimbs := by
  refine (natAbs_lt_pow_limbCount i).trans_le (Nat.pow_le_pow_right t.base_pos ?_)
  rw [numLimbs_ofInt]
  exact le_max_right 1 _

theorem natAbs_lt_pow_max (i j : ℤ) :
    i.natAbs < t.base ^ max (ofInt t i).numLimbs (ofInt t j).numLimbs :=
  (natAbs_lt_pow_numLimbs i).trans_le (Nat.pow_le_pow_right t.base_pos (le_max_left _ _))

theorem natAbs_lt_pow_max' (i j : ℤ) :
    j.natAbs < t.base ^ max (ofInt t i).numLimbs (ofInt t j).numLimbs :=
  (natAbs_lt_pow_numLimbs j).trans_le (Nat.pow_le_pow_right t.base_pos (le_max_right _ _))

theorem limbCount_of_le_add {k : ℤ} (h : k.natAbs ≤ i.natAbs + j.natAbs) :
    limbCount t k ≤ max (ofInt t i).numLimbs (ofInt t j).numLimbs + 1 := by
  have hi := natAbs_lt_pow_max (t := t) i j
  have hj := natAbs_lt_pow_max' (t := t) i j
  have hmul := Nat.mul_le_mul_left (t.base ^ max (ofInt t i).numLimbs (ofInt t j).numLimbs) t.one_lt_base
  rw [limbCount_le_iff, Nat.pow_succ]
  omega

theorem limbCount_mul (i j : ℤ) :
    limbCount t (i * j) ≤ (ofInt t i).numLimbs + (ofInt t j).numLimbs := by
  rw [limbCount_le_iff, Int.natAbs_mul, Nat.pow_add]
  exact Nat.mul_lt_mul'' (natAbs_lt_pow_numLimbs i) (natAbs_lt_pow_numLimbs j)

theorem limbCount_tdiv (h0 : j ≠ 0) (hle : (ofInt t j).numLimbs ≤ (ofInt t i).numLimbs) :
    limbCount t (i.tdiv j) ≤ (ofInt t i).numLimbs - (ofInt t j).numLimbs + 2 := by
  have hi := natAbs_lt_pow_numLimbs (t := t) i
  have hj : t.base ^ ((ofInt t j).numLimbs - 1) ≤ j.natAbs := by
    have := limbCount_pos (t := t) h0
    refine lt_limbCount_iff.mp ?_
    rw [numLimbs_ofInt]
    omega
  have hpos := one_le_numLimbs (t := t) j
  rw [limbCount_le_iff, natAbs_tdiv]
  refine Nat.div_lt_of_lt_mul (hi.trans_le ?_)
  calc t.base ^ (ofInt t i).numLimbs
      ≤ t.base ^ ((ofInt t j).numLimbs - 1 + ((ofInt t i).numLimbs - (ofInt t j).numLimbs + 2)) :=
        Nat.pow_le_pow_right t.base_pos (by omega)
    _ = t.base ^ ((ofInt t j).numLimbs - 1) *
          t.base ^ ((ofInt t i).numLimbs - (ofInt t j).numLimbs + 2) := Nat.pow_add ..
    _ ≤ _ := Nat.mul_le_mul_right _ hj

theorem limbCount_tmod (h0 : j ≠ 0) : limbCount t (i.tmod j) ≤ (ofInt t j).numLimbs := by
  have hmod : (i.tmod j).natAbs = i.natAbs % j.natAbs := Int.natAbs_tmod i j
  rw [limbCount_le_iff, hmod]
  exact (Nat.mod_lt _ (Int.natAbs_pos.mpr h0)).trans (natAbs_lt_pow_numLimbs j)

theorem limbCount_gcd (i j : ℤ) :
    limbCount t (i.gcd j) ≤ max (ofInt t i).numLimbs (ofInt t j).numLimbs := by
  rw [limbCount_le_iff, Int.natAbs_natCast]
  obtain rfl | h0 := eq_or_ne i 0
  · rw [Int.gcd_zero_left]
    exact natAbs_lt_pow_max' 0 j
  · exact (Int.gcd_le_natAbs_left j h0).trans_lt (natAbs_lt_pow_max i j)

theorem limbCount_lor (i j : ℤ) :
    limbCount t (i.lor j) ≤ max (ofInt t i).numLimbs (ofInt t j).numLimbs := by
  rw [limbCount_le_iff]
  exact TwosComplement.natAbs_lor_lt ⟨_, base_eq_two_pow _⟩ (natAbs_lt_pow_max i j)
    (natAbs_lt_pow_max' i j)

theorem limbCount_lshift (i : ℤ) (shift : UInt32) :
    limbCount t (i * 2 ^ shift.toNat) ≤ (ofInt t i).numLimbs + shiftSize t shift + 1 := by
  have hpow : 2 ^ shift.toNat ≤ t.base ^ (shiftSize t shift + 1) := by
    have hpos : 0 < t.limb := by have := t.limb_eq; omega
    rw [base_eq_two_pow]
    exact Nat.pow_le_pow_right (by omega) (Nat.lt_mul_div_succ _ hpos).le
  rw [limbCount_le_iff, Int.natAbs_mul, Int.natAbs_pow, show Int.natAbs 2 = 2 from rfl, Nat.add_assoc, Nat.pow_add]
  exact Nat.mul_lt_mul_of_lt_of_le (natAbs_lt_pow_numLimbs i) hpow (Nat.pow_pos t.base_pos)

theorem pow_shiftSize_le (shift : UInt32) : t.base ^ shiftSize t shift ≤ 2 ^ shift.toNat := by
  rw [base_eq_two_pow]
  exact Nat.pow_le_pow_right (by omega) (Nat.mul_div_le _ _)

theorem limbCount_rashift (i : ℤ) (shift : UInt32) :
    limbCount t (i / 2 ^ shift.toNat) ≤ (ofInt t i).numLimbs - shiftSize t shift + 1 := by
  have hi := natAbs_lt_pow_numLimbs (t := t) i
  have hle : i.natAbs ≤ t.base ^ ((ofInt t i).numLimbs - shiftSize t shift) * 2 ^ shift.toNat :=
    calc i.natAbs
        ≤ t.base ^ ((ofInt t i).numLimbs - shiftSize t shift + shiftSize t shift) :=
          hi.le.trans (Nat.pow_le_pow_right t.base_pos (by omega))
      _ = t.base ^ ((ofInt t i).numLimbs - shiftSize t shift) * t.base ^ shiftSize t shift :=
          Nat.pow_add ..
      _ ≤ _ := Nat.mul_le_mul_left _ (pow_shiftSize_le shift)
  have habs : (i / 2 ^ shift.toNat).natAbs ≤ t.base ^ ((ofInt t i).numLimbs - shiftSize t shift) := by
    have hpos : (0 : ℤ) < 2 ^ shift.toNat := by positivity
    have hleZ : (i.natAbs : ℤ) ≤ t.base ^ ((ofInt t i).numLimbs - shiftSize t shift) * 2 ^ shift.toNat := by
      exact_mod_cast hle
    have hlo : -(t.base ^ ((ofInt t i).numLimbs - shiftSize t shift) : ℤ) ≤ i / 2 ^ shift.toNat := by
      rw [Int.le_ediv_iff_mul_le hpos, neg_mul]
      omega
    have hhi : i / 2 ^ shift.toNat ≤ (t.base ^ ((ofInt t i).numLimbs - shiftSize t shift) : ℤ) := by
      refine Int.ediv_le_of_le_mul hpos ?_
      omega
    zify
    exact abs_le.mpr ⟨hlo, hhi⟩
  rw [limbCount_le_iff, Nat.pow_succ]
  exact habs.trans_lt (lt_mul_of_one_lt_right (Nat.pow_pos t.base_pos) t.one_lt_base)

end Limbs

/-! ## The bytes reserved -/

section Reserve

variable {t : Target} {i j : ℤ}

theorem bytesPerMPLimb_le (t : Target) : 4 ≤ bytesPerMPLimb t ∧ bytesPerMPLimb t ≤ 8 := by
  unfold bytesPerMPLimb
  obtain h | h := t.limb_eq <;> omega

theorem reserveExact_le (num extra : ℕ) :
    reserveExact t num extra ≤ t.metaData + bytesPerMPLimb t * (num + extra + 1) + 7 := by
  unfold reserveExact
  rw [Nat.mul_add, Nat.mul_add]
  split <;> omega

/-- The bytes for two limbs more than an argument has fit in a word. -/
theorem reserveExact_lt {x : BigInt} (h : InMemory t x) {num extra : ℕ} (hle : num + extra ≤ x.numLimbs + 2) :
    reserveExact t num extra < 2 ^ t.limb := by
  have hbytes := bytesPerMPLimb_le t
  have hmul := Nat.mul_le_mul_left (bytesPerMPLimb t) (show num + extra + 1 ≤ x.numLimbs + 1 + 2 by omega)
  have hexact := reserveExact_le (t := t) num extra
  rw [Nat.mul_add _ (x.numLimbs + 1)] at hmul
  unfold InMemory at h
  omega

theorem reserveExact_max_lt (hi : InMemory t (ofInt t i)) (hj : InMemory t (ofInt t j)) {extra : ℕ}
    (hle : extra ≤ 2) :
    reserveExact t (max (ofInt t i).numLimbs (ofInt t j).numLimbs) extra < 2 ^ t.limb := by
  obtain h | h := le_total (ofInt t i).numLimbs (ofInt t j).numLimbs
  · rw [max_eq_right h]
    exact reserveExact_lt hj (by omega)
  · rw [max_eq_left h]
    exact reserveExact_lt hi (by omega)

variable {frontier : ℕ}

/-- An answer of no more limbs than reserved. -/
theorem fits_of_limbCount_le (hw : t.objptr = t.limb) (hf : t.align ∣ frontier + t.header) {num extra : ℕ}
    (h : reserveExact t num extra < 2 ^ t.limb) (hle : limbCount t i ≤ num + extra) :
    setFrontier t frontier (ofInt t i) ≤ frontier + reserve t num extra :=
  (setFrontier_le_reserve_iff hw hf i h).mpr (.inr (.inl hle))

/-- An answer that may have one limb more than reserved. -/
theorem fits_iff_of_natAbs_le (hw : t.objptr = t.limb) (hf : t.align ∣ frontier + t.header) {num : ℕ}
    (hnum : 1 ≤ num) (h : reserveExact t num 0 < 2 ^ t.limb) (hle : i.natAbs ≤ t.base ^ num) :
    setFrontier t frontier (ofInt t i) ≤ frontier + reserve t num 0 ↔
      ¬ (i.natAbs = t.base ^ num ∧ ¬ Slack t num) := by
  rw [setFrontier_le_reserve_iff hw hf i h, Nat.add_zero, limbCount_le_iff]
  by_cases hlt : i.natAbs < t.base ^ num
  · exact iff_of_true (.inr (.inl hlt)) fun hc => hlt.ne hc.1
  · have heq : i.natAbs = t.base ^ num := by omega
    have hfix : ¬ t.IsFixnum i := fun hfix => hlt (limbCount_le_iff.mp ((limbCount_fixnum hfix).trans hnum))
    have hcount : limbCount t i = num + 1 := by
      refine le_antisymm (limbCount_le_iff.mpr ?_) (lt_limbCount_iff.mpr heq.ge)
      rw [heq]
      exact Nat.pow_lt_pow_right t.one_lt_base (by omega)
    simp [hfix, heq, hcount]

/-- A word too small for the bytes that are needed is too small for the object. -/
theorem not_fits_of_wraps (hf : t.align ∣ frontier + t.header) {num extra : ℕ}
    (h : 2 ^ t.limb ≤ reserveExact t num extra) (hle : num + extra ≤ limbCount t i + 1)
    (hfix : ¬ t.IsFixnum i) :
    ¬ setFrontier t frontier (ofInt t i) ≤ frontier + reserve t num extra := by
  have hbytes := bytesPerMPLimb_le t
  have hpow : 2 ^ 32 ≤ 2 ^ t.limb := by
    have := t.limb_eq
    exact Nat.pow_le_pow_right (by omega) (by omega)
  have hmod : reserve t num extra ≤ reserveExact t num extra - 2 ^ t.limb := by
    rw [show reserve t num extra = reserveExact t num extra % 2 ^ t.limb from rfl, Nat.mod_eq_sub_mod h]
    exact Nat.mod_le _ _
  have hmul := Nat.mul_le_mul_left (bytesPerMPLimb t)
    (show num + extra + 1 ≤ limbCount t i + 1 + 1 by omega)
  have hexact := reserveExact_le (t := t) num extra
  have halign := Runtime.le_align (a := t.metaData + bytesPerMPLimb t * (limbCount t i + 1))
    (b := t.align) (by have := t.align_eq; omega)
  rw [Nat.mul_succ _ (limbCount t i + 1)] at hmul
  rw [setFrontier_ofInt hf, if_neg hfix]
  omega

end Reserve

/-! ## Each operation -/

section Operations

variable {t : Target} {frontier : ℕ} (mpz : Mpz t) (hw : t.objptr = t.limb)
variable (hf : t.align ∣ frontier + t.header) {i j : ℤ}

include hw hf

theorem bigAdd_fits (hi : InMemory t (ofInt t i)) (hj : InMemory t (ofInt t j)) :
    (bigAdd t (ofInt t i) (ofInt t j)).Fits mpz frontier := by
  rw [bigAdd, makeArith_ofInt]
  split
  · trivial
  · rw [Prim.add, Reply.Fits, RuntimeCall.run_binop (by simp)]
    exact fits_of_limbCount_le hw hf (reserveExact_max_lt hi hj (by omega))
      (limbCount_of_le_add (Int.natAbs_add_le i j))

theorem bigSub_fits (hi : InMemory t (ofInt t i)) (hj : InMemory t (ofInt t j)) :
    (bigSub t (ofInt t i) (ofInt t j)).Fits mpz frontier := by
  rw [bigSub, makeArith_ofInt]
  split
  · trivial
  · rw [Prim.sub, Reply.Fits, RuntimeCall.run_binop (by simp)]
    exact fits_of_limbCount_le hw hf (reserveExact_max_lt hi hj (by omega))
      (limbCount_of_le_add (Int.natAbs_sub_le i j))

theorem neg_fits (hi : InMemory t (ofInt t i)) :
    (Prim.neg (ofInt t i) (reserve t (ofInt t i).numLimbs 1)).Fits mpz frontier := by
  rw [Prim.neg, Reply.Fits, RuntimeCall.run_unop]
  refine fits_of_limbCount_le hw hf (reserveExact_lt hi (by omega)) ?_
  rw [limbCount_le_iff, UnFn.exact, Int.natAbs_neg, ← limbCount_le_iff, numLimbs_ofInt]
  omega

theorem bigNeg_fits (hi : InMemory t (ofInt t i)) : (bigNeg t (ofInt t i)).Fits mpz frontier := by
  rw [bigNeg_ofInt]
  split
  · trivial
  · exact neg_fits mpz hw hf hi

theorem bigAbs_fits (hi : InMemory t (ofInt t i)) : (bigAbs t (ofInt t i)).Fits mpz frontier := by
  rw [bigAbs_ofInt]
  split
  · trivial
  · exact neg_fits mpz hw hf hi

theorem bigQuot_fits (hi : InMemory t (ofInt t i)) {r : Reply}
    (h : bigQuot t (ofInt t i) (ofInt t j) = .ok r) : r.Fits mpz frontier := by
  obtain rfl | h0 := eq_or_ne j 0
  · rw [bigQuot_zero] at h
    nomatch h
  · rw [bigQuot_ofInt h0] at h
    obtain rfl := Except.ok.inj h
    split
    · trivial
    next hcase =>
      have hpos := one_le_numLimbs (t := t) j
      rw [Prim.quot, Reply.Fits, RuntimeCall.run_binop fun _ => h0]
      exact fits_of_limbCount_le hw hf (reserveExact_lt hi (by omega)) (limbCount_tdiv h0 (by omega))

theorem bigRem_fits (hj : InMemory t (ofInt t j)) {r : Reply}
    (h : bigRem t (ofInt t i) (ofInt t j) = .ok r) : r.Fits mpz frontier := by
  obtain rfl | h0 := eq_or_ne j 0
  · rw [bigRem_zero] at h
    nomatch h
  · rw [bigRem_ofInt h0] at h
    obtain rfl := Except.ok.inj h
    split
    · trivial
    · rw [Prim.rem, Reply.Fits, RuntimeCall.run_binop fun _ => h0]
      exact fits_of_limbCount_le hw hf (reserveExact_lt hj (by omega))
        ((limbCount_tmod h0).trans (by omega))

theorem bigGcd_fits (hi : InMemory t (ofInt t i)) (hj : InMemory t (ofInt t j)) {r : Reply}
    (h : bigGcd t (ofInt t i) (ofInt t j) = .ok r) : r.Fits mpz frontier := by
  rw [bigGcd_ofInt] at h
  obtain rfl := Except.ok.inj h
  split
  · trivial
  · rw [Prim.gcd, Reply.Fits, RuntimeCall.run_binop (by simp)]
    exact fits_of_limbCount_le hw hf (reserveExact_max_lt hi hj (by omega)) (limbCount_gcd i j)

theorem bigOrb_fits (hi : InMemory t (ofInt t i)) (hj : InMemory t (ofInt t j)) :
    (bigOrb t (ofInt t i) (ofInt t j)).Fits mpz frontier := by
  rw [bigOrb_ofInt]
  split
  · trivial
  · rw [Prim.orb, Reply.Fits, RuntimeCall.run_binop (by simp)]
    exact fits_of_limbCount_le hw hf (reserveExact_max_lt hi hj (by omega)) (limbCount_lor i j)

theorem bigRashift_fits (hi : InMemory t (ofInt t i)) (shift : UInt32) :
    (bigRashift t (ofInt t i) shift).Fits mpz frontier := by
  unfold bigRashift
  split
  · trivial
  · rw [Prim.arshift, Reply.Fits, RuntimeCall.run_shop]
    exact fits_of_limbCount_le hw hf (reserveExact_lt hi (by omega)) (limbCount_rashift i shift)

/-! ### Operations that may carry -/

omit hw hf in
theorem mag_lt_bits {x : ℤ} {n : ℕ} (h : x.natAbs < t.base ^ n) :
    TwosComplement.mag x < 2 ^ (t.limb * n) := by
  rw [← base_eq_two_pow]
  exact (TwosComplement.mag_le_natAbs x).trans_lt h

omit hw hf in
/-- A power of the base is no fixnum. -/
theorem not_isFixnum_of_natAbs_eq {n : ℕ} (hn : 1 ≤ n) (h : i.natAbs = t.base ^ n) : ¬ t.IsFixnum i := by
  intro hfix
  have hlt := limbCount_le_iff.mp ((limbCount_fixnum hfix).trans hn)
  omega

theorem bigAndb_fits_iff (hi : InMemory t (ofInt t i)) (hj : InMemory t (ofInt t j)) :
    (bigAndb t (ofInt t i) (ofInt t j)).Fits mpz frontier ↔ ¬ Spills t (.andb i j) := by
  have hmi := mag_lt_bits (natAbs_lt_pow_max (t := t) i j)
  have hmj := mag_lt_bits (natAbs_lt_pow_max' (t := t) i j)
  have hn : 1 ≤ max (ofInt t i).numLimbs (ofInt t j).numLimbs := (one_le_numLimbs i).trans (le_max_left _ _)
  have hcarry : (i.land j).natAbs = t.base ^ max (ofInt t i).numLimbs (ofInt t j).numLimbs ↔
      Carries t (.andb i j) := by
    rw [base_eq_two_pow]
    exact TwosComplement.natAbs_land_eq_iff hmi hmj
  simp only [Spills, Wraps, or_false, ← hcarry]
  rw [bigAndb_ofInt]
  split
  next hfix =>
    refine iff_of_true trivial fun h => not_isFixnum_of_natAbs_eq hn h.1 ?_
    rw [isFixnum_iff_mag] at hfix ⊢
    exact TwosComplement.mag_land_lt hfix.1 (isFixnum_iff_mag.mp hfix.2)
  · rw [Prim.andb, Reply.Fits, RuntimeCall.run_binop (by simp)]
    refine fits_iff_of_natAbs_le hw hf hn (reserveExact_max_lt hi hj (by omega)) ?_
    rw [base_eq_two_pow]
    exact TwosComplement.natAbs_land_le hmi hmj

theorem bigXorb_fits_iff (hi : InMemory t (ofInt t i)) (hj : InMemory t (ofInt t j)) :
    (bigXorb t (ofInt t i) (ofInt t j)).Fits mpz frontier ↔ ¬ Spills t (.xorb i j) := by
  have hmi := mag_lt_bits (natAbs_lt_pow_max (t := t) i j)
  have hmj := mag_lt_bits (natAbs_lt_pow_max' (t := t) i j)
  have hn : 1 ≤ max (ofInt t i).numLimbs (ofInt t j).numLimbs := (one_le_numLimbs i).trans (le_max_left _ _)
  have hcarry : (i.xor j).natAbs = t.base ^ max (ofInt t i).numLimbs (ofInt t j).numLimbs ↔
      Carries t (.xorb i j) := by
    rw [base_eq_two_pow]
    exact TwosComplement.natAbs_xor_eq_iff hmi hmj
  simp only [Spills, Wraps, or_false, ← hcarry]
  rw [bigXorb_ofInt]
  split
  next hfix =>
    refine iff_of_true trivial fun h => not_isFixnum_of_natAbs_eq hn h.1 ?_
    rw [isFixnum_iff_mag] at hfix ⊢
    exact TwosComplement.mag_xor_lt hfix.1 (isFixnum_iff_mag.mp hfix.2)
  · rw [Prim.xorb, Reply.Fits, RuntimeCall.run_binop (by simp)]
    refine fits_iff_of_natAbs_le hw hf hn (reserveExact_max_lt hi hj (by omega)) ?_
    rw [base_eq_two_pow]
    exact TwosComplement.natAbs_xor_le hmi hmj

theorem bigNotb_fits_iff (hi : InMemory t (ofInt t i)) :
    (bigNotb t (ofInt t i)).Fits mpz frontier ↔ ¬ Spills t (.notb i) := by
  have hmi := mag_lt_bits (natAbs_lt_pow_numLimbs (t := t) i)
  have hn := one_le_numLimbs (t := t) i
  have hcarry : i.lnot.natAbs = t.base ^ (ofInt t i).numLimbs ↔ Carries t (.notb i) := by
    rw [base_eq_two_pow, Carries, bitsReserved, max_self]
    exact TwosComplement.natAbs_lnot_eq_iff hmi
  simp only [Spills, Wraps, or_false, ← hcarry]
  rw [bigNotb_ofInt]
  split
  next hfix =>
    refine iff_of_true trivial fun h => not_isFixnum_of_natAbs_eq hn h.1 ?_
    rwa [isFixnum_iff_mag, TwosComplement.mag_lnot, ← isFixnum_iff_mag]
  · rw [Prim.notb, Reply.Fits, RuntimeCall.run_unop]
    refine fits_iff_of_natAbs_le hw hf hn (reserveExact_lt hi (by omega)) ?_
    rw [base_eq_two_pow]
    exact TwosComplement.natAbs_lnot_le hmi

/-! ### Operations that may wrap -/

omit hw hf in
/-- A number of more than one limb has as many as it says. -/
theorem pow_le_natAbs (h : 1 < (ofInt t i).numLimbs) : t.base ^ ((ofInt t i).numLimbs - 1) ≤ i.natAbs := by
  rw [numLimbs_ofInt] at h ⊢
  exact lt_limbCount_iff.mp (by omega)

omit hw hf in
theorem not_isFixnum_of_limbs (h : 1 < limbCount t i) : ¬ t.IsFixnum i := fun hfix =>
  absurd (limbCount_fixnum hfix) (by omega)

omit hw hf in
theorem not_isFixnum_of_numLimbs (h : 1 < (ofInt t i).numLimbs) : ¬ t.IsFixnum i := by
  rw [numLimbs_ofInt] at h
  exact not_isFixnum_of_limbs (by omega)

theorem bigMul_fits_iff (hi : InMemory t (ofInt t i)) (hj : InMemory t (ofInt t j)) :
    (bigMul t (ofInt t i) (ofInt t j)).Fits mpz frontier ↔ ¬ Spills t (.mul i j) := by
  simp only [Spills, Carries, false_and, false_or, Wraps]
  rw [bigMul, makeArith_ofInt]
  by_cases hwrap : 2 ^ t.limb ≤ reserveExact t ((ofInt t i).numLimbs + (ofInt t j).numLimbs) 0
  · have hni : 1 < (ofInt t i).numLimbs := by
      by_contra hle
      exact absurd hwrap (not_le.mpr (reserveExact_lt hj (by omega)))
    have hnj : 1 < (ofInt t j).numLimbs := by
      by_contra hle
      exact absurd hwrap (not_le.mpr (reserveExact_lt hi (by omega)))
    have hcount : (ofInt t i).numLimbs - 1 + ((ofInt t j).numLimbs - 1) < limbCount t (i * j) := by
      rw [lt_limbCount_iff, Nat.pow_add, Int.natAbs_mul]
      exact Nat.mul_le_mul (pow_le_natAbs hni) (pow_le_natAbs hnj)
    rw [if_neg fun h => not_isFixnum_of_numLimbs hni h.1, Prim.mul, Reply.Fits,
      RuntimeCall.run_binop (by simp)]
    exact iff_of_false (not_fits_of_wraps hf hwrap (by simp only [BinFn.exact]; omega)
      (not_isFixnum_of_limbs (by simp only [BinFn.exact]; omega))) (not_not.mpr hwrap)
  · refine iff_of_true ?_ hwrap
    split
    · trivial
    · rw [Prim.mul, Reply.Fits, RuntimeCall.run_binop (by simp)]
      exact fits_of_limbCount_le hw hf (by omega) (limbCount_mul i j)

omit hf in
/-- The limbs of a shift alone fit in a word. -/
theorem reserveExact_shift_lt {num : ℕ} (h : num ≤ 1) (shift : UInt32) :
    reserveExact t (num + shiftSize t shift) 1 < 2 ^ t.limb := by
  have hmeta := t.metaData_eq hw
  have hlt := shift.toNat_lt
  have hexact := reserveExact_le (t := t) (num + shiftSize t shift) 1
  unfold shiftSize bytesPerMPLimb at hexact
  unfold shiftSize
  obtain hlimb | hlimb := t.limb_eq <;>
    rw [hw, hlimb] at hmeta <;> rw [hlimb] at hexact ⊢ <;> omega

theorem bigLshift_fits_iff (hi : InMemory t (ofInt t i)) (shift : UInt32) :
    (bigLshift t (ofInt t i) shift).Fits mpz frontier ↔ ¬ Spills t (.lshift i shift) := by
  simp only [Spills, Carries, false_and, false_or, Wraps]
  by_cases hwrap : 2 ^ t.limb ≤ reserveExact t ((ofInt t i).numLimbs + shiftSize t shift) 1
  · have hn : 1 < (ofInt t i).numLimbs := by
      by_contra hle
      exact absurd hwrap (not_le.mpr (reserveExact_shift_lt hw (by omega) shift))
    have hshift : shift ≠ 0 := by
      rintro rfl
      exact absurd hwrap (not_le.mpr (reserveExact_lt hi (by simp [shiftSize])))
    have hcount : (ofInt t i).numLimbs - 1 + shiftSize t shift < limbCount t (i * 2 ^ shift.toNat) := by
      rw [lt_limbCount_iff, Nat.pow_add, Int.natAbs_mul, Int.natAbs_pow]
      exact Nat.mul_le_mul (pow_le_natAbs hn) (pow_shiftSize_le shift)
    rw [bigLshift, if_neg hshift, Prim.lshift, Reply.Fits, RuntimeCall.run_shop]
    exact iff_of_false (not_fits_of_wraps hf hwrap (by simp only [ShFn.exact]; omega)
      (not_isFixnum_of_limbs (by simp only [ShFn.exact]; omega))) (not_not.mpr hwrap)
  · refine iff_of_true ?_ hwrap
    unfold bigLshift
    split
    · trivial
    · rw [Prim.lshift, Reply.Fits, RuntimeCall.run_shop]
      exact fits_of_limbCount_le hw hf (by omega) (limbCount_lshift i shift)

end Operations

/-! ## All calls -/

section Main

variable {t : Target}

theorem ok_of_toOption {e : Except Exn Reply} {r : Reply} (h : e.toOption = some r) : e = .ok r := by
  cases e with
  | error _ => nomatch h
  | ok r' => exact congrArg _ (Option.some.inj h)

theorem args_map {α β : Type} (f : α → β) (c : Call α) : (c.map f).args = c.args.map f := by
  cases c <;> rfl

theorem fits_iff_ofInt (mpz : Mpz t) (hw : t.objptr = t.limb) {frontier : ℕ} (hf : t.align ∣ frontier + t.header)
    (c : Call ℤ) (hmem : ∀ x ∈ c.args, InMemory t (ofInt t x)) {r : Reply}
    (hr : (c.map (ofInt t)).reply t = some r) : r.Fits mpz frontier ↔ ¬ Spills t c := by
  have hnever : ∀ {c : Call ℤ}, Carries t c = False → Wraps t c = False → ¬ Spills t c := by
    rintro c hcarries hwraps (⟨h, -⟩ | h)
    · exact hcarries ▸ h
    · exact hwraps ▸ h
  cases c <;> simp only [Call.args, List.forall_mem_cons, List.not_mem_nil, false_implies, implies_true,
    and_true] at hmem
  case add x y =>
    obtain rfl := Option.some.inj hr
    exact iff_of_true (bigAdd_fits mpz hw hf hmem.1 hmem.2) (hnever rfl rfl)
  case sub x y =>
    obtain rfl := Option.some.inj hr
    exact iff_of_true (bigSub_fits mpz hw hf hmem.1 hmem.2) (hnever rfl rfl)
  case mul x y =>
    obtain rfl := Option.some.inj hr
    exact bigMul_fits_iff mpz hw hf hmem.1 hmem.2
  case neg x =>
    obtain rfl := Option.some.inj hr
    exact iff_of_true (bigNeg_fits mpz hw hf hmem) (hnever rfl rfl)
  case abs x =>
    obtain rfl := Option.some.inj hr
    exact iff_of_true (bigAbs_fits mpz hw hf hmem) (hnever rfl rfl)
  case quot x y =>
    exact iff_of_true (bigQuot_fits mpz hw hf hmem.1 (ok_of_toOption hr)) (hnever rfl rfl)
  case rem x y =>
    exact iff_of_true (bigRem_fits mpz hw hf hmem.2 (ok_of_toOption hr)) (hnever rfl rfl)
  case gcd x y =>
    exact iff_of_true (bigGcd_fits mpz hw hf hmem.1 hmem.2 (ok_of_toOption hr)) (hnever rfl rfl)
  case andb x y =>
    obtain rfl := Option.some.inj hr
    exact bigAndb_fits_iff mpz hw hf hmem.1 hmem.2
  case orb x y =>
    obtain rfl := Option.some.inj hr
    exact iff_of_true (bigOrb_fits mpz hw hf hmem.1 hmem.2) (hnever rfl rfl)
  case xorb x y =>
    obtain rfl := Option.some.inj hr
    exact bigXorb_fits_iff mpz hw hf hmem.1 hmem.2
  case notb x =>
    obtain rfl := Option.some.inj hr
    exact bigNotb_fits_iff mpz hw hf hmem
  case lshift x shift =>
    obtain rfl := Option.some.inj hr
    exact bigLshift_fits_iff mpz hw hf hmem shift
  case rashift x shift =>
    obtain rfl := Option.some.inj hr
    exact iff_of_true (bigRashift_fits mpz hw hf hmem shift) (hnever rfl rfl)
  all_goals cases hr

/-- **When the space reserved suffices.** The frontier stays in the bytes that a call reserves unless the
call spills. -/
theorem frontier_fits_iff (mpz : Mpz t) (hw : t.objptr = t.limb) {frontier : ℕ}
    (hf : t.align ∣ frontier + t.header) (c : Call BigInt) (hcanon : ∀ x ∈ c.args, Canonical t x)
    (hmem : ∀ x ∈ c.args, InMemory t x) {r : Reply} (hr : c.reply t = some r) :
    r.Fits mpz frontier ↔ ¬ Spills t (c.map (value t)) := by
  have hc := map_value_map_ofInt hcanon
  refine fits_iff_ofInt mpz hw hf _ (fun x hx => ?_) (hc.symm ▸ hr)
  obtain ⟨y, hy, rfl⟩ := List.mem_map.mp (args_map (value t) c ▸ hx)
  rw [canonical_iff.mp (hcanon y hy)]
  exact hmem y hy

theorem ofInt_of_lt_base {n : ℕ} (h : t.bound ≤ n) (hlt : n < t.base) : ofInt t n = .vector [0, n] := by
  have hpos := t.bound_pos
  have hfix : ¬ t.IsFixnum n := fun hfix => absurd hfix.2 (by omega)
  rw [ofInt_big hfix, signLimb, if_neg (by omega), Int.natAbs_natCast, Nat.digits_of_lt _ _ (by omega) hlt]

/-- A complement that does not carry. -/
theorem frontier_fits_iff_notb :
    (bigNotb .bits64 (.vector [0, 2 ^ 64 - 2])).Fits (.reference .bits64) 8 := by
  have hx : ofInt .bits64 (2 ^ 64 - 2 : ℕ) = .vector [0, 2 ^ 64 - 2] :=
    ofInt_of_lt_base (by decide) (by decide)
  refine (frontier_fits_iff (.reference .bits64) rfl (by decide) (.notb (.vector [0, 2 ^ 64 - 2]))
    (fun y hy => ?_) (fun y hy => ?_) rfl).mpr ?_
  · obtain rfl := List.mem_singleton.mp hy
    exact hx ▸ canonical_ofInt _
  · obtain rfl := List.mem_singleton.mp hy
    exact show InMemory _ _ by unfold InMemory; decide
  · rintro (⟨⟨-, hbits⟩, -⟩ | h)
    · rw [← hx, value_ofInt] at hbits
      exact absurd (hbits 0 (by rw [bitsReserved, hx]; decide)) (by decide)
    · exact h

/-- The complement of the largest number of one limb has two. -/
theorem notb_spills : Canonical .bits64 (.vector [0, 2 ^ 64 - 1]) ∧
    InMemory .bits64 (.vector [0, 2 ^ 64 - 1]) ∧
    ¬ (bigNotb .bits64 (.vector [0, 2 ^ 64 - 1])).Fits (.reference .bits64) 8 := by
  have hx : ofInt .bits64 (2 ^ 64 - 1 : ℕ) = .vector [0, 2 ^ 64 - 1] :=
    ofInt_of_lt_base (by decide) (by decide)
  have hmem : InMemory .bits64 (.vector [0, 2 ^ 64 - 1]) := by unfold InMemory; decide
  refine ⟨hx ▸ canonical_ofInt _, hmem, fun h => ?_⟩
  rw [← hx] at h hmem
  refine (bigNotb_fits_iff _ rfl (by decide) hmem).mp h (.inl ⟨⟨by decide, fun k hk => ?_⟩, ?_⟩)
  · rw [bitsReserved, hx] at hk
    exact (Nat.testBit_two_pow_sub_one 64 k).trans (decide_eq_true hk)
  · rintro ⟨h32, -⟩
    exact absurd h32 (by decide)

end Main

end MLton.IntInf
