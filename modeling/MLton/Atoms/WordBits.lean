import MLton.Atoms.WordX

/-!
# Atoms/WordBits — the operations on word constants as operations on vectors of bits

`w.Is s b`: the constant `w` has size `s` and its bits are `b`.  Each operation of `WordX` gives the
constant that *is* the corresponding operation on the arguments' bits.
-/

namespace MLton.Atoms.WordX

/-- The constant as `n` bits. -/
def bitsAt (n : ℕ) (w : WordX) : BitVec n := .ofInt n w.value

theorem ofInt_emod (n : ℕ) (i : ℤ) : BitVec.ofInt n (i % 2 ^ n) = BitVec.ofInt n i := by
  refine BitVec.eq_of_toNat_eq ?_
  simp [BitVec.toNat_ofInt]

@[simp] theorem size_make (i : ℤ) (s : WordSize) : (make i s).size = s := rfl

@[simp] theorem bitsAt_make (i : ℤ) (s : WordSize) : (make i s).bitsAt s.bits = .ofInt s.bits i := by
  simp only [bitsAt, make, modulus_eq, ofInt_emod]

variable {n : ℕ} {s : WordSize} {w w' : WordX}

theorem toNat_bitsAt : w.size = s → ((w.bitsAt s.bits).toNat : ℤ) = w.value
  | rfl => by
    rw [bitsAt, BitVec.toNat_ofInt, Int.toNat_of_nonneg (Int.emod_nonneg _ (by positivity))]
    exact Int.emod_eq_of_lt w.value_nonneg (by exact_mod_cast w.value_lt)

theorem modulus_half (s : WordSize) : modulus s = 2 * 2 ^ (s.bits - 1) := by
  rw [modulus_eq, ← pow_succ', Nat.sub_add_cancel s.bits_pos]

theorem toInt_bitsAt (h : w.size = s) : (w.bitsAt s.bits).toInt = w.toIntInfX := by
  have hm := modulus_half s
  have hp : ((2 ^ s.bits : ℕ) : ℤ) = modulus s := by rw [modulus_eq]; norm_cast
  rw [BitVec.toInt_eq_toNat_cond, toNat_bitsAt h, hp, toIntInfX, h]
  have hv := toNat_bitsAt h
  split_ifs <;> omega

/-- The constant of size `s` with bits `b`. -/
structure Is (w : WordX) (s : WordSize) (b : BitVec s.bits) : Prop where
  size : w.size = s
  bits : w.bitsAt s.bits = b

theorem is_self (w : WordX) : w.Is w.size (w.bitsAt w.size.bits) := ⟨rfl, rfl⟩

theorem is_make {i : ℤ} {b : BitVec s.bits} (h : .ofInt s.bits i = b) : (make i s).Is s b :=
  ⟨rfl, (bitsAt_make i s).trans h⟩

namespace Is

variable {x y : BitVec s.bits}

theorem value (h : w.Is s x) : w.value = x.toNat := by rw [← h.bits, toNat_bitsAt h.size]

theorem toIntInf (h : w.Is s x) : w.toIntInf = x.toNat := h.value

theorem toIntInfX (h : w.Is s x) : w.toIntInfX = x.toInt := by rw [← h.bits, toInt_bitsAt h.size]

theorem unique (h : w.Is s x) (h' : w.Is s y) : x = y := h.bits.symm.trans h'.bits

/-- The integer that a signed or an unsigned operation works on. -/
theorem toIntInfSg (h : w.Is s x) (signed : Bool) :
    w.toIntInfSg signed = if signed then x.toInt else x.toNat := by
  cases signed
  exacts [h.toIntInf, h.toIntInfX]

end Is

/-! ## Arithmetic -/

section Arithmetic

variable {x y : BitVec s.bits}

theorem ofInt_toNat (x : BitVec n) : BitVec.ofInt n x.toNat = x := by simp

theorem makeBinary_is {name : String} {f : ℤ → ℤ → ℤ} {b : BitVec s.bits} (h : w.Is s x)
    (h' : w'.Is s y) (hf : .ofInt s.bits (f x.toNat y.toNat) = b) :
    ∃ r, makeBinary name f w w' = .ok r ∧ r.Is s b := by
  refine ⟨make (f w.value w'.value) s, ?_, is_make (by rwa [h.value, h'.value])⟩
  rw [makeBinary, if_pos (h.size.trans h'.size.symm), h.size]

theorem add_is (h : w.Is s x) (h' : w'.Is s y) : ∃ r, w.add w' = .ok r ∧ r.Is s (x + y) :=
  makeBinary_is h h' (by simp [BitVec.ofInt_add])

theorem sub_is (h : w.Is s x) (h' : w'.Is s y) : ∃ r, w.sub w' = .ok r ∧ r.Is s (x - y) :=
  makeBinary_is h h' (by rw [Int.sub_eq_add_neg, BitVec.ofInt_add, BitVec.ofInt_neg]; simp [BitVec.sub_eq_add_neg])

theorem andb_is (h : w.Is s x) (h' : w'.Is s y) : ∃ r, w.andb w' = .ok r ∧ r.Is s (x &&& y) :=
  makeBinary_is h h' (BitVec.eq_of_toNat_eq (by
    change (BitVec.ofInt s.bits ((x.toNat &&& y.toNat : ℕ) : ℤ)).toNat = _
    simp))

theorem orb_is (h : w.Is s x) (h' : w'.Is s y) : ∃ r, w.orb w' = .ok r ∧ r.Is s (x ||| y) :=
  makeBinary_is h h' (BitVec.eq_of_toNat_eq (by
    change (BitVec.ofInt s.bits ((x.toNat ||| y.toNat : ℕ) : ℤ)).toNat = _
    simp))

theorem xorb_is (h : w.Is s x) (h' : w'.Is s y) : ∃ r, w.xorb w' = .ok r ∧ r.Is s (x ^^^ y) :=
  makeBinary_is h h' (BitVec.eq_of_toNat_eq (by
    change (BitVec.ofInt s.bits ((x.toNat ^^^ y.toNat : ℕ) : ℤ)).toNat = _
    simp))

theorem notb_is (h : w.Is s x) : w.notb.Is s (~~~x) := by
  rw [notb, h.size]
  refine is_make ?_
  rw [h.value]
  change BitVec.ofInt s.bits (.negSucc x.toNat) = _
  simp

theorem neg_is (h : w.Is s x) : w.neg.Is s (-x) := by
  rw [neg, h.size]
  exact is_make (by rw [h.toIntInfX, BitVec.ofInt_neg, BitVec.ofInt_toInt])

theorem makeSigned_is {name : String} {f : ℤ → ℤ → Except Exn ℤ} {signed : Bool} {i : ℤ}
    {b : BitVec s.bits} (h : w.Is s x) (h' : w'.Is s y)
    (hf : f (if signed then x.toInt else x.toNat) (if signed then y.toInt else y.toNat) = .ok i)
    (hi : .ofInt s.bits i = b) :
    ∃ r, makeSigned name f w w' signed = .ok r ∧ r.Is s b := by
  refine ⟨make i s, ?_, is_make hi⟩
  rw [makeSigned, if_pos (h.size.trans h'.size.symm), h.toIntInfSg, h'.toIntInfSg, hf, h.size]
  rfl

theorem mul_is (h : w.Is s x) (h' : w'.Is s y) (signed : Bool) :
    ∃ r, w.mul w' signed = .ok r ∧ r.Is s (x * y) :=
  makeSigned_is h h' rfl (by cases signed <;> simp [BitVec.ofInt_mul])

/-- What `quot` is on bits. -/
def quotBits (signed : Bool) (x y : BitVec n) : BitVec n := if signed then x.sdiv y else x / y

/-- What `rem` is on bits. -/
def remBits (signed : Bool) (x y : BitVec n) : BitVec n := if signed then x.srem y else x % y

theorem sg_ne_zero (signed : Bool) (hy : y ≠ 0#s.bits) : (if signed then y.toInt else (y.toNat : ℤ)) ≠ 0 := by
  cases signed
  · simpa [BitVec.toNat_eq] using hy
  · simpa [← BitVec.toInt_inj] using hy

theorem quot_is (h : w.Is s x) (h' : w'.Is s y) (signed : Bool) (hy : y ≠ 0#s.bits) :
    ∃ r, w.quot w' signed = .ok r ∧ r.Is s (quotBits signed x y) := by
  refine makeSigned_is h h' (if_neg (sg_ne_zero signed hy)) ?_
  cases signed
  · refine BitVec.eq_of_toNat_eq ?_
    change (BitVec.ofInt s.bits ((x.toNat / y.toNat : ℕ) : ℤ)).toNat = (x / y).toNat
    rw [BitVec.ofInt_natCast, BitVec.toNat_ofNat, BitVec.toNat_udiv]
    exact Nat.mod_eq_of_lt ((Nat.div_le_self _ _).trans_lt x.isLt)
  · exact BitVec.eq_of_toInt_eq (by simp [quotBits, BitVec.toInt_sdiv])

theorem rem_is (h : w.Is s x) (h' : w'.Is s y) (signed : Bool) (hy : y ≠ 0#s.bits) :
    ∃ r, w.rem w' signed = .ok r ∧ r.Is s (remBits signed x y) := by
  refine makeSigned_is h h' (if_neg (sg_ne_zero signed hy)) ?_
  cases signed
  · refine BitVec.eq_of_toNat_eq ?_
    change (BitVec.ofInt s.bits ((x.toNat % y.toNat : ℕ) : ℤ)).toNat = (x % y).toNat
    rw [BitVec.ofInt_natCast, BitVec.toNat_ofNat, BitVec.toNat_umod]
    exact Nat.mod_eq_of_lt ((Nat.mod_le _ _).trans_lt x.isLt)
  · exact (congrArg _ (BitVec.toInt_srem x y).symm).trans BitVec.ofInt_toInt

end Arithmetic

/-! ## Shifts and rotations -/

section Shifts

variable {t : WordSize} {x : BitVec s.bits} {c : BitVec t.bits}

theorem makeShift_is {f : ℤ → ℕ → ℤ} {b : BitVec s.bits} (h : w.Is s x) (h' : w'.Is t c)
    (hz : s.bits ≤ c.toNat → b = 0#s.bits) (hf : c.toNat < s.bits → .ofInt s.bits (f x.toNat c.toNat) = b) :
    (makeShift f w w').Is s b := by
  rw [makeShift, h.size, h'.value, h.value, Int.toNat_natCast]
  split_ifs with hc
  · exact is_make (by rw [hz (by exact_mod_cast hc)]; simp)
  · exact is_make (hf (by exact_mod_cast lt_of_not_ge hc))

theorem lshift_is (h : w.Is s x) (h' : w'.Is t c) : (w.lshift w').Is s (x <<< c.toNat) :=
  makeShift_is h h' (fun hc => BitVec.shiftLeft_eq_zero hc) fun _ => BitVec.eq_of_toNat_eq (by
    change (BitVec.ofInt s.bits ((x.toNat <<< c.toNat : ℕ) : ℤ)).toNat = _
    rw [BitVec.ofInt_natCast, BitVec.toNat_ofNat, BitVec.toNat_shiftLeft])

/-- What `rshift` is on bits. -/
def rshiftBits (signed : Bool) (x : BitVec n) (c : ℕ) : BitVec n :=
  if signed then x.sshiftRight c else x >>> c

theorem lrshift_is (h : w.Is s x) (h' : w'.Is t c) : (w.lrshift w').Is s (x >>> c.toNat) :=
  makeShift_is h h' (fun hc => BitVec.ushiftRight_eq_zero hc) fun _ => BitVec.eq_of_toNat_eq (by
    change (BitVec.ofInt s.bits ((x.toNat >>> c.toNat : ℕ) : ℤ)).toNat = _
    rw [BitVec.ofInt_natCast, BitVec.toNat_ofNat, BitVec.toNat_ushiftRight]
    exact Nat.mod_eq_of_lt ((Nat.shiftRight_le _ _).trans_lt x.isLt))

/-- From the width on, only copies of the sign are left. -/
theorem sshiftRight_of_le {x : BitVec n} {k : ℕ} (h : n ≤ k) : x.sshiftRight k = x.sshiftRight n := by
  ext i hi
  have hk : ¬ k + i < n := by omega
  have hn : ¬ n + i < n := by omega
  simp [BitVec.getElem_sshiftRight, hk]

theorem arshift_is (h : w.Is s x) (h' : w'.Is t c) : (w.arshift w').Is s (x.sshiftRight c.toNat) := by
  rw [arshift, h.size, h'.value, h.toIntInfX, Int.toNat_natCast]
  split_ifs with hc
  · exact is_make (sshiftRight_of_le (by exact_mod_cast hc.le)).symm
  · exact is_make rfl

theorem rshift_is (h : w.Is s x) (h' : w'.Is t c) (signed : Bool) :
    (w.rshift w' signed).Is s (rshiftBits signed x c.toNat) := by
  cases signed
  exacts [lrshift_is h h', arshift_is h h']

theorem swap_natCast (v hi lo : ℕ) :
    swap v hi lo = ((v >>> lo ||| (v % 1 <<< lo) <<< hi : ℕ) : ℤ) := by
  change ((v >>> lo : ℕ) : ℤ).lor (((v : ℤ) % ((1 <<< lo : ℕ) : ℤ)) <<< hi) = _
  rw [← Int.natCast_mod]
  rfl

/-- The bits that leave on one side come in on the other. -/
theorem toNat_swap (x : BitVec n) {hi lo : ℕ} (h : lo + hi = n) :
    (BitVec.ofInt n (swap x.toNat hi lo)).toNat = x.toNat >>> lo ||| x.toNat <<< hi % 2 ^ n := by
  have hlow : (x.toNat % 1 <<< lo) <<< hi = x.toNat <<< hi % 2 ^ n := by
    have hpow : 2 ^ n = 2 ^ lo * 2 ^ hi := by rw [← h, pow_add]
    rw [hpow, Nat.shiftLeft_eq, Nat.shiftLeft_eq, Nat.shiftLeft_eq, one_mul,
      Nat.mul_mod_mul_right]
  have hhigh : x.toNat >>> lo < 2 ^ n := (Nat.shiftRight_le _ _).trans_lt x.isLt
  rw [swap_natCast, BitVec.ofInt_natCast, BitVec.toNat_ofNat, hlow]
  exact Nat.mod_eq_of_lt (Nat.or_lt_two_pow hhigh (Nat.mod_lt _ (Nat.two_pow_pos n)))

theorem rol_is (h : w.Is s x) (h' : w'.Is t c) : (w.rol w').Is s (x.rotateLeft c.toNat) := by
  have hlt := Nat.mod_lt c.toNat s.bits_pos
  rw [rol, h.size, h'.value, h.value, ← Int.natCast_mod, Int.toNat_natCast]
  refine is_make (BitVec.eq_of_toNat_eq ?_)
  rw [toNat_swap x (Nat.sub_add_cancel hlt.le), BitVec.toNat_rotateLeft, Nat.or_comm]

theorem ror_is (h : w.Is s x) (h' : w'.Is t c) : (w.ror w').Is s (x.rotateRight c.toNat) := by
  have hlt := Nat.mod_lt c.toNat s.bits_pos
  rw [ror, h.size, h'.value, h.value, ← Int.natCast_mod, Int.toNat_natCast]
  refine is_make (BitVec.eq_of_toNat_eq ?_)
  rw [toNat_swap x (Nat.add_sub_cancel' hlt.le), BitVec.toNat_rotateRight]

end Shifts

/-! ## Comparisons, overflow and sizes -/

section Tests

variable {x y : BitVec s.bits}

theorem equals_is (h : w.Is s x) (h' : w'.Is s y) : w.equals w' = decide (x = y) := by
  rw [equals, h.size, h'.size, h.value, h'.value]
  simp [BitVec.toNat_eq]

/-- What `lt` is on bits. -/
def ltBits (signed : Bool) (x y : BitVec n) : Bool := if signed then x.slt y else x.ult y

theorem lt_is (h : w.Is s x) (h' : w'.Is s y) (signed : Bool) :
    w.lt w' signed = .ok (ltBits signed x y) := by
  rw [lt, makeCompare, if_pos (h.size.trans h'.size.symm), h.toIntInfSg, h'.toIntInfSg]
  cases signed
  · simp [ltBits, BitVec.ult]
  · simp [ltBits, BitVec.slt]

theorem ge_is (h : w.Is s x) (h' : w'.Is s y) :
    w.ge w' false = .ok (y.toNat ≤ x.toNat) := by
  rw [ge, makeCompare, if_pos (h.size.trans h'.size.symm), h.toIntInfSg, h'.toIntInfSg]
  simp

theorem Is.isZero_iff (h : w.Is s x) : w.isZero = true ↔ x = 0#s.bits := by
  rw [isZero, h.value, decide_eq_true_eq, BitVec.toNat_eq]
  simp [eq_comm]

theorem Is.isOne_iff (h : w.Is s x) : w.isOne = true ↔ x = 1#s.bits := by
  have hone : 1 % 2 ^ s.bits = 1 := Nat.mod_eq_of_lt (Nat.one_lt_two_pow s.bits_pos.ne')
  rw [isOne, h.value, decide_eq_true_eq, BitVec.toNat_eq]
  simp only [BitVec.toNat_ofNat, hone]
  omega

theorem Is.isAllOnes_iff (h : w.Is s x) : w.isAllOnes = true ↔ x = .allOnes s.bits := by
  have hpos := Nat.two_pow_pos s.bits
  have hcast : ((2 ^ s.bits : ℕ) : ℤ) = 2 ^ s.bits := by norm_cast
  rw [isAllOnes, h.value, h.size, modulus_eq, decide_eq_true_eq, BitVec.toNat_eq, BitVec.toNat_allOnes]
  omega

theorem Is.isNegOne_iff (h : w.Is s x) : w.isNegOne = true ↔ x = .allOnes s.bits := by
  rw [isNegOne, h.toIntInfX, decide_eq_true_eq, ← BitVec.toInt_inj, BitVec.toInt_allOnes,
    if_pos s.bits_pos, eq_comm]

/-- The bits of the greatest value. -/
def maxBits (signed : Bool) (n : ℕ) : BitVec n := if signed then .intMax n else .allOnes n

/-- The bits of the least value. -/
def minBits (signed : Bool) (n : ℕ) : BitVec n := if signed then .intMin n else 0#n

theorem max_is (s : WordSize) (signed : Bool) : (max s signed).Is s (maxBits signed s.bits) := by
  refine is_make ?_
  have hpos := Nat.two_pow_pos s.bits
  cases signed
  · have hmax : s.max false = ((2 ^ s.bits - 1 : ℕ) : ℤ) := by
      rw [Nat.cast_sub hpos]
      simp [WordSize.max, WordSize.range, WordSize.cardinality, Int.shiftLeft_eq]
    rw [hmax, BitVec.ofInt_natCast]
    exact BitVec.eq_of_toNat_eq (by simp [maxBits, Nat.mod_eq_of_lt (Nat.sub_one_lt hpos.ne')])
  · have hmax : s.max true = 2 ^ (s.bits - 1) - 1 := by
      simp [WordSize.max, WordSize.range, Int.shiftLeft_eq]
    rw [hmax, ← BitVec.toInt_intMax, BitVec.ofInt_toInt]
    rfl

theorem min_is (s : WordSize) (signed : Bool) : (min s signed).Is s (minBits signed s.bits) := by
  refine is_make ?_
  cases signed
  · simp [WordSize.min, WordSize.range, minBits]
  · have hmin : s.min true = -2 ^ (s.bits - 1) := by
      simp [WordSize.min, WordSize.range, Int.shiftLeft_eq]
    rw [hmin, ← BitVec.toInt_intMin_of_pos s.bits_pos, BitVec.ofInt_toInt]
    rfl

theorem Is.isMax_iff (h : w.Is s x) (signed : Bool) :
    w.isMax signed = true ↔ x = maxBits signed s.bits := by
  rw [isMax, h.size, equals_is h (max_is s signed), decide_eq_true_eq]

theorem Is.isMin_iff (h : w.Is s x) (signed : Bool) :
    w.isMin signed = true ↔ x = minBits signed s.bits := by
  rw [isMin, h.size, equals_is h (min_is s signed), decide_eq_true_eq]

/-- Nothing is above the greatest value. -/
theorem ltBits_max (signed : Bool) (y : BitVec n) : ltBits signed (maxBits signed n) y = false := by
  cases signed
  · have := y.isLt
    simp only [ltBits, maxBits, BitVec.ult, BitVec.toNat_allOnes, Bool.false_eq_true, if_false,
      decide_eq_false_iff_not]
    omega
  · have := BitVec.toInt_lt (x := y)
    simp only [ltBits, maxBits, BitVec.slt, BitVec.toInt_intMax, if_true, decide_eq_false_iff_not]
    omega

/-- Nothing is below the least value. -/
theorem ltBits_min (signed : Bool) (x : BitVec n) : ltBits signed x (minBits signed n) = false := by
  cases signed
  · simp [ltBits, minBits, BitVec.ult]
  · have := BitVec.toInt_intMin_le x
    simpa [ltBits, minBits, BitVec.slt] using this

/-- The unsigned range. -/
theorem outOfRange_false (i : ℤ) : (!s.isInRange i false) = decide (i < 0 ∨ 2 ^ s.bits ≤ i) := by
  rw [Bool.eq_iff_iff]
  simp [WordSize.isInRange, WordSize.min, WordSize.max, WordSize.range, WordSize.cardinality,
    Int.shiftLeft_eq, Int.le_sub_one_iff]

/-- The signed range. -/
theorem outOfRange_true (i : ℤ) :
    (!s.isInRange i true) = (decide (2 ^ (s.bits - 1) ≤ i) || decide (i < -2 ^ (s.bits - 1))) := by
  rw [Bool.eq_iff_iff]
  simp [WordSize.isInRange, WordSize.min, WordSize.max, WordSize.range, Int.shiftLeft_eq,
    Int.le_sub_one_iff, or_comm]

/-- What `addCheckP` is on bits. -/
def addCheckBits (signed : Bool) (x y : BitVec n) : Bool :=
  if signed then x.saddOverflow y else x.uaddOverflow y

/-- What `subCheckP` is on bits. -/
def subCheckBits (signed : Bool) (x y : BitVec n) : Bool :=
  if signed then x.ssubOverflow y else x.usubOverflow y

/-- What `mulCheckP` is on bits. -/
def mulCheckBits (signed : Bool) (x y : BitVec n) : Bool :=
  if signed then x.smulOverflow y else x.umulOverflow y

/-- What `negCheckP` is on bits: it is `subCheckP` from zero. -/
def negCheckBits (signed : Bool) (x : BitVec n) : Bool := subCheckBits signed 0#n x

/-- A sum is out of range if the addition overflows. -/
theorem addCheck_is (h : w.Is s x) (h' : w'.Is s y) (signed : Bool) :
    (!s.isInRange (w.toIntInfSg signed + w'.toIntInfSg signed) signed) = addCheckBits signed x y := by
  rw [h.toIntInfSg, h'.toIntInfSg]
  cases signed
  · have hcast : ((2 ^ s.bits : ℕ) : ℤ) = 2 ^ s.bits := by norm_cast
    rw [outOfRange_false]
    refine decide_eq_decide.mpr ?_
    simp only [Bool.false_eq_true, if_false]
    omega
  · exact outOfRange_true _

theorem subCheck_is (h : w.Is s x) (h' : w'.Is s y) (signed : Bool) :
    (!s.isInRange (w.toIntInfSg signed - w'.toIntInfSg signed) signed) = subCheckBits signed x y := by
  rw [h.toIntInfSg, h'.toIntInfSg]
  cases signed
  · have hcast : ((2 ^ s.bits : ℕ) : ℤ) = 2 ^ s.bits := by norm_cast
    have := x.isLt
    rw [outOfRange_false]
    refine decide_eq_decide.mpr ?_
    simp only [Bool.false_eq_true, if_false]
    omega
  · exact outOfRange_true _

theorem mulCheck_is (h : w.Is s x) (h' : w'.Is s y) (signed : Bool) :
    (!s.isInRange (w.toIntInfSg signed * w'.toIntInfSg signed) signed) = mulCheckBits signed x y := by
  rw [h.toIntInfSg, h'.toIntInfSg]
  cases signed
  · have hcast : ((2 ^ s.bits : ℕ) : ℤ) = 2 ^ s.bits := by norm_cast
    have hmul : ((x.toNat * y.toNat : ℕ) : ℤ) = x.toNat * y.toNat := by norm_cast
    rw [outOfRange_false]
    refine decide_eq_decide.mpr ?_
    simp only [Bool.false_eq_true, if_false]
    omega
  · exact outOfRange_true _

theorem negCheck_is (h : w.Is s x) (signed : Bool) :
    (!s.isInRange (-w.toIntInfSg signed) signed) = negCheckBits signed x := by
  have hzero : (zero s).Is s 0#s.bits := is_make (by simp)
  have hsub := subCheck_is hzero h signed
  have : (zero s).toIntInfSg signed = 0 := by
    rw [hzero.toIntInfSg]
    cases signed <;> simp
  rwa [this, zero_sub] at hsub

/-- What `extdToWord` is on bits. -/
def extdBits (signed : Bool) (m : ℕ) (x : BitVec n) : BitVec m :=
  if signed then x.signExtend m else x.setWidth m

theorem resizeSg_is (h : w.Is s x) (s' : WordSize) (signed : Bool) :
    (w.resizeSg s' signed).Is s' (extdBits signed s'.bits x) := by
  cases signed
  · exact is_make (by rw [h.toIntInf]; exact BitVec.eq_of_toNat_eq (by simp [extdBits]))
  · exact is_make (by rw [h.toIntInfX]; rfl)

end Tests

/-! ## Identities -/

section Identities

variable (signed : Bool) (x y : BitVec n)

theorem addCheckBits_zero : addCheckBits signed x 0#n = false := by
  cases signed
  · simpa [addCheckBits, BitVec.uaddOverflow] using x.isLt
  · have hle := BitVec.le_two_mul_toInt (x := x)
    simpa [addCheckBits, BitVec.saddOverflow] using ⟨BitVec.toInt_lt, BitVec.le_toInt x⟩

theorem addCheckBits_comm : addCheckBits signed x y = addCheckBits signed y x := by
  cases signed
  · simp [addCheckBits, BitVec.uaddOverflow, Nat.add_comm]
  · simp [addCheckBits, BitVec.saddOverflow, Int.add_comm]

theorem subCheckBits_zero : subCheckBits signed x 0#n = false := by
  cases signed
  · simp [subCheckBits, BitVec.usubOverflow]
  · simpa [subCheckBits, BitVec.ssubOverflow] using ⟨BitVec.toInt_lt, BitVec.le_toInt x⟩

theorem subCheckBits_self : subCheckBits signed x x = false := by
  cases signed
  · simp [subCheckBits, BitVec.usubOverflow]
  · simp [subCheckBits, BitVec.ssubOverflow, pow_pos]

theorem mulCheckBits_comm : mulCheckBits signed x y = mulCheckBits signed y x := by
  cases signed
  · simp [mulCheckBits, BitVec.umulOverflow, Nat.mul_comm]
  · simp [mulCheckBits, BitVec.smulOverflow, Int.mul_comm]

theorem mulCheckBits_zero : mulCheckBits signed x 0#n = false := by
  cases signed
  · simp [mulCheckBits, BitVec.umulOverflow]
  · simp [mulCheckBits, BitVec.smulOverflow, pow_pos]

/-- A word of one bit is no one if it is signed. -/
theorem mulCheckBits_one (hn : 2 ≤ n) : mulCheckBits signed x 1#n = false := by
  have hone : (1#n).toInt = 1 := BitVec.toInt_one hn
  cases signed
  · have hmod : 1 % 2 ^ n = 1 := Nat.mod_eq_of_lt (Nat.one_lt_two_pow (by omega))
    simpa [mulCheckBits, BitVec.umulOverflow, hmod] using x.isLt
  · simpa [mulCheckBits, BitVec.smulOverflow, hone] using ⟨BitVec.toInt_lt, BitVec.le_toInt x⟩

theorem ltBits_self : ltBits signed x x = false := by
  cases signed
  · simp [ltBits, BitVec.ult]
  · simp [ltBits, BitVec.slt]

theorem quotBits_one : quotBits signed x 1#n = x := by
  cases signed
  · simp [quotBits]
  · simp [quotBits]

theorem quotBits_allOnes (hn : 0 < n) : quotBits true x (.allOnes n) = -x := by
  refine BitVec.eq_of_toInt_eq ?_
  simp [quotBits, BitVec.toInt_sdiv, BitVec.toInt_neg, hn]

theorem quotBits_self (hx : x ≠ 0#n) : quotBits signed x x = 1#n := by
  cases signed
  · simp [quotBits, hx]
  · simp [quotBits, hx]

theorem remBits_one : remBits signed x 1#n = 0#n := by
  cases signed
  · simp [remBits]
  · simp [remBits]

theorem remBits_allOnes (hn : 0 < n) : remBits true x (.allOnes n) = 0#n := by
  refine BitVec.eq_of_toInt_eq ?_
  simp [remBits, BitVec.toInt_srem, hn]

theorem remBits_self : remBits signed x x = 0#n := by
  cases signed
  · simp [remBits]
  · simp [remBits]

theorem mul_allOnes : x * .allOnes n = -x := by
  rw [← BitVec.neg_one_eq_allOnes]
  simp

theorem rshiftBits_zero : rshiftBits signed x 0 = x := by cases signed <;> simp [rshiftBits]

theorem zero_rshiftBits (c : ℕ) : rshiftBits signed 0#n c = 0#n := by
  cases signed <;> simp [rshiftBits]

theorem allOnes_rshiftBits (c : ℕ) : rshiftBits true (.allOnes n) c = .allOnes n := by
  ext i hi
  have hmsb : (BitVec.allOnes n).msb = true := by simp [BitVec.msb_allOnes (by omega : 0 < n)]
  simp [rshiftBits, BitVec.getElem_sshiftRight, hmsb]

theorem rotateLeft_of_mod {c : ℕ} (h : c % n = 0) : x.rotateLeft c = x := by
  simp [BitVec.rotateLeft_def, h, BitVec.ushiftRight_eq_zero]

theorem rotateRight_of_mod {c : ℕ} (h : c % n = 0) : x.rotateRight c = x := by
  simp [BitVec.rotateRight_def, h]

theorem zero_rotateLeft (c : ℕ) : (0#n).rotateLeft c = 0#n := by simp [BitVec.rotateLeft_def]

theorem zero_rotateRight (c : ℕ) : (0#n).rotateRight c = 0#n := by simp [BitVec.rotateRight_def]

theorem allOnes_rotateLeft (c : ℕ) : (BitVec.allOnes n).rotateLeft c = .allOnes n := by
  ext i hi
  simp [BitVec.getElem_rotateLeft]

theorem allOnes_rotateRight (c : ℕ) : (BitVec.allOnes n).rotateRight c = .allOnes n := by
  ext i hi
  simp [BitVec.getElem_rotateRight]

end Identities

/-! ## Extensions of extensions -/

/-- The bits of an extension. -/
theorem getLsbD_extdBits {n : ℕ} (signed : Bool) (m : ℕ) (x : BitVec n) (i : ℕ) :
    (extdBits signed m x).getLsbD i =
      (decide (i < m) && if i < n then x.getLsbD i else signed && x.msb) := by
  cases signed
  · by_cases hi : i < n
    · simp [extdBits, BitVec.getLsbD_setWidth, hi]
    · simp [extdBits, BitVec.getLsbD_setWidth, hi, BitVec.getLsbD_of_ge x i (by omega)]
  · simp [extdBits, BitVec.getLsbD_signExtend]

theorem msb_extdBits {n : ℕ} (signed : Bool) {m : ℕ} (x : BitVec n) (h : n < m) :
    (extdBits signed m x).msb = (signed && x.msb) := by
  rw [BitVec.msb_eq_getLsbD_last, getLsbD_extdBits, if_neg (by omega), decide_eq_true (by omega),
    Bool.true_and]

/-- **An extension of an extension** is one where neither size cuts bits off that the other one keeps, and
the second one does not undo the sign of the first. -/
theorem extdBits_extdBits {n m k : ℕ} (signed signed' : Bool) (x : BitVec n)
    (h : n ≤ k ∧ k ≤ m ∨ (n < m ∧ m < k ∧ (signed = false ∨ signed' = true)) ∨ k ≤ n ∧ k ≤ m) :
    extdBits signed' k (extdBits signed m x) = extdBits signed k x := by
  refine BitVec.eq_of_getLsbD_eq fun i hi => ?_
  rw [getLsbD_extdBits, getLsbD_extdBits, getLsbD_extdBits, decide_eq_true hi, Bool.true_and, Bool.true_and]
  by_cases hm : i < m
  · rw [if_pos hm, decide_eq_true hm, Bool.true_and]
  · -- the outer extension is longer than the inner one
    obtain h | ⟨hnm, -, hsign⟩ | h := h
    · omega
    · rw [if_neg hm, if_neg (by omega), msb_extdBits signed x hnm]
      obtain rfl | rfl := hsign
      · simp
      · simp
    · omega

/-! ## One more and one less -/

section Steps

variable {n : ℕ} {signed : Bool} {x y z : BitVec n}

theorem ltBits_signed : ltBits true x y = true ↔ x.toInt < y.toInt := by simp [ltBits, BitVec.slt]

theorem ltBits_unsigned : ltBits false x y = true ↔ x.toNat < y.toNat := by simp [ltBits, BitVec.ult]

theorem ltBits_of_le_of_lt (h : ltBits signed y x = false) (h' : ltBits signed y z = true) :
    ltBits signed x z = true := by
  cases signed
  · rw [← Bool.not_eq_true, ltBits_unsigned] at h
    rw [ltBits_unsigned] at h' ⊢
    omega
  · rw [← Bool.not_eq_true, ltBits_signed] at h
    rw [ltBits_signed] at h' ⊢
    omega

theorem ltBits_of_lt_of_le (h : ltBits signed z y = true) (h' : ltBits signed x y = false) :
    ltBits signed z x = true := by
  cases signed
  · rw [← Bool.not_eq_true, ltBits_unsigned] at h'
    rw [ltBits_unsigned] at h ⊢
    omega
  · rw [← Bool.not_eq_true, ltBits_signed] at h'
    rw [ltBits_signed] at h ⊢
    omega

/-- A word that another one is greater than is not the greatest. -/
theorem addCheckBits_one (hn : 2 ≤ n) (h : ltBits signed x y = true) : addCheckBits signed x 1#n = false := by
  cases signed
  · have hlt := ltBits_unsigned.mp h
    have hy := y.isLt
    simp only [addCheckBits, BitVec.uaddOverflow, BitVec.toNat_one (show 0 < n by omega), Bool.false_eq_true,
      if_false, decide_eq_false_iff_not]
    omega
  · have hlt := ltBits_signed.mp h
    have hx := x.le_toInt
    have hy := @BitVec.toInt_lt n y
    simp only [addCheckBits, BitVec.saddOverflow, BitVec.toInt_one hn, if_true, Bool.or_eq_false_iff,
      decide_eq_false_iff_not]
    omega

/-- A word that is greater than another one is not the least. -/
theorem subCheckBits_one (hn : 2 ≤ n) (h : ltBits signed y x = true) : subCheckBits signed x 1#n = false := by
  cases signed
  · have hlt := ltBits_unsigned.mp h
    simp only [subCheckBits, BitVec.usubOverflow, BitVec.toNat_one (show 0 < n by omega), Bool.false_eq_true,
      if_false, decide_eq_false_iff_not]
    omega
  · have hlt := ltBits_signed.mp h
    have hx := @BitVec.toInt_lt n x
    have hy := y.le_toInt
    simp only [subCheckBits, BitVec.ssubOverflow, BitVec.toInt_one hn, if_true, Bool.or_eq_false_iff,
      decide_eq_false_iff_not]
    omega

theorem addCheckBits_negOne (hz : z.toInt = -1) (h : ltBits true y x = true) :
    addCheckBits true x z = false := by
  have hlt := ltBits_signed.mp h
  have hx := @BitVec.toInt_lt n x
  have hy := y.le_toInt
  simp only [addCheckBits, BitVec.saddOverflow, hz, if_true, Bool.or_eq_false_iff, decide_eq_false_iff_not]
  omega

theorem subCheckBits_negOne (hz : z.toInt = -1) (h : ltBits true x y = true) :
    subCheckBits true x z = false := by
  have hlt := ltBits_signed.mp h
  have hx := x.le_toInt
  have hy := @BitVec.toInt_lt n y
  simp only [subCheckBits, BitVec.ssubOverflow, hz, if_true, Bool.or_eq_false_iff, decide_eq_false_iff_not]
  omega

end Steps

end MLton.Atoms.WordX
