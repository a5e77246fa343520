import MLton.IntInf.Rep
import MLton.Runtime.CardMap

/-!
# IntInf/Runtime — the calls of the runtime

The runtime reads its arguments as `__mpz_struct`s, leaves the operation to the library of
multiple-precision integers, whose functions are parameters that are exact (`Mpz`), and stores the answer
at the frontier unless it fits in a fixnum.
-/

namespace MLton.IntInf

open BigInt

/-! ## Integers of multiple precision -/

/-- `__mpz_struct`: the number of limbs, negative for a negative integer, and the limbs. -/
structure MpzStruct where
  size : ℤ
  limbs : List ℕ
  deriving DecidableEq, Repr

namespace MpzStruct

variable (t : Target)

/-- The integer that a struct stands for. -/
def value (m : MpzStruct) : ℤ := m.size.sign * (Nat.ofDigits t.base m.limbs : ℕ)

/-- The struct of an integer; the most significant limb is not zero. -/
def ofInt (i : ℤ) : MpzStruct := ⟨i.sign * limbCount t i, Nat.digits t.base i.natAbs⟩

variable {t}

theorem natAbs_size_ofInt (i : ℤ) : (ofInt t i).size.natAbs = limbCount t i := by
  obtain hneg | rfl | hpos := Int.lt_trichotomy i 0
  · simp [ofInt, Int.sign_eq_neg_one_of_neg hneg]
  · simp [ofInt, limbCount]
  · simp [ofInt, Int.sign_eq_one_of_pos hpos]

theorem size_ofInt_neg_iff (i : ℤ) : (ofInt t i).size < 0 ↔ i < 0 := by
  obtain hneg | rfl | hpos := Int.lt_trichotomy i 0
  · have := limbCount_pos (t := t) (i := i) (by omega)
    simp [ofInt, Int.sign_eq_neg_one_of_neg hneg, hneg, this]
  · simp [ofInt]
  · simp only [ofInt, Int.sign_eq_one_of_pos hpos, one_mul]
    omega

theorem sign_size_ofInt (i : ℤ) : (ofInt t i).size.sign = i.sign := by
  obtain rfl | h := eq_or_ne i 0
  · simp [ofInt]
  · have hpos := limbCount_pos (t := t) h
    rw [ofInt, Int.sign_mul, Int.sign_sign, Int.sign_natCast_of_ne_zero (by omega), mul_one]

@[simp] theorem value_ofInt (i : ℤ) : value t (ofInt t i) = i := by
  rw [value, sign_size_ofInt, ofInt, Nat.ofDigits_digits, Int.sign_mul_natAbs]

end MpzStruct

/-- The functions of two integers: `mpz_add`, `mpz_sub`, … -/
inductive BinFn where
  | add
  | sub
  | mul
  | tdivQ
  | tdivR
  | gcd
  | and
  | ior
  | xor
  deriving DecidableEq

/-- What a function of two integers computes. -/
def BinFn.exact : BinFn → ℤ → ℤ → ℤ
  | add, i, j => i + j
  | sub, i, j => i - j
  | mul, i, j => i * j
  | tdivQ, i, j => i.tdiv j
  | tdivR, i, j => i.tmod j
  | gcd, i, j => i.gcd j
  | and, i, j => i.land j
  | ior, i, j => i.lor j
  | xor, i, j => i.xor j

/-- The functions of one integer: `mpz_neg` and `mpz_com`. -/
inductive UnFn where
  | neg
  | com
  deriving DecidableEq

/-- What a function of one integer computes. -/
def UnFn.exact : UnFn → ℤ → ℤ
  | neg, i => -i
  | com, i => i.lnot

/-- The functions that shift: `mpz_fdiv_q_2exp` and `mpz_mul_2exp`. -/
inductive ShFn where
  | fdivQ2Exp
  | mul2Exp
  deriving DecidableEq

/-- What a function that shifts computes. -/
def ShFn.exact : ShFn → ℤ → ℕ → ℤ
  | fdivQ2Exp, i, n => i / 2 ^ n
  | mul2Exp, i, n => i * 2 ^ n

/-- **The library of multiple-precision integers**: its functions compute exactly, but division by zero is
not defined. -/
structure Mpz (t : Target) where
  binop : BinFn → MpzStruct → MpzStruct → MpzStruct
  unop : UnFn → MpzStruct → MpzStruct
  shop : ShFn → MpzStruct → ℕ → MpzStruct
  cmp : MpzStruct → MpzStruct → ℤ
  binop_ofInt : ∀ f i j, (f = .tdivQ ∨ f = .tdivR → j ≠ 0) →
    binop f (.ofInt t i) (.ofInt t j) = .ofInt t (f.exact i j)
  unop_ofInt : ∀ f i, unop f (.ofInt t i) = .ofInt t (f.exact i)
  shop_ofInt : ∀ f i n, shop f (.ofInt t i) n = .ofInt t (f.exact i n)
  cmp_ofInt : ∀ i j, (cmp (.ofInt t i) (.ofInt t j)).sign = (i - j).sign

/-- The library that computes on the integers that the structs stand for. -/
def Mpz.reference (t : Target) : Mpz t where
  binop f lhs rhs := .ofInt t (f.exact (lhs.value t) (rhs.value t))
  unop f arg := .ofInt t (f.exact (arg.value t))
  shop f arg n := .ofInt t (f.exact (arg.value t) n)
  cmp lhs rhs := lhs.value t - rhs.value t
  binop_ofInt f i j _ := by simp
  unop_ofInt f i := by simp
  shop_ofInt f i n := by simp
  cmp_ofInt i j := by simp

/-! ## Arguments and answers -/

section Convert

variable (t : Target)

/-- `fillIntInfArg`; `(arg >> 1) | highBitMask` is the arithmetic shift of a negative word. -/
def fillIntInfArg : BigInt → MpzStruct
  | .word arg =>
      if arg = 1 then ⟨0, []⟩
      else if arg < 0 then ⟨-1, [(-(arg / 2)).toNat]⟩
      else ⟨1, [(arg / 2).toNat]⟩
  | .vector v =>
      let alloc : ℤ := (v.length - 1 : ℕ)
      ⟨if v.headD 0 ≠ 0 then -alloc else alloc, v.tail⟩

/-- `finiIntInfRes`, its answer: a limb is not shorter than an object pointer. -/
def finiIntInfRes (res : MpzStruct) : BigInt :=
  let isneg := res.size < 0
  let size := res.size.natAbs
  let limb := res.limbs.headD 0
  let val := if isneg then (limb + t.base - 1) % t.base else limb
  if size = 0 then .word 1
  else if size ≤ 1 ∧ val < t.bound then .word (addTag t (t.word (if isneg then -limb else limb)))
  else .vector ((if isneg then 1 else 0) :: res.limbs.take size)

/-- `alignFrontier`. -/
def alignFrontier (p : ℕ) : ℕ := Runtime.align (p + t.header) t.align - t.header

/-- The bytes of a limb. -/
def bytesPerMPLimb : ℕ := t.limb / 8

/-- Where `finiIntInfRes` moves the frontier to: past the limbs of the object that it answers with. -/
def setFrontier (frontier : ℕ) : BigInt → ℕ
  | .word _ => frontier
  | .vector v => alignFrontier t (frontier + t.metaData + bytesPerMPLimb t * v.length)

variable {t}

theorem fillIntInfArg_ofInt (i : ℤ) : fillIntInfArg (BigInt.ofInt t i) = .ofInt t i := by
  have hbase := t.four_bound_le_base
  by_cases hfix : t.IsFixnum i
  · rw [BigInt.ofInt_fixnum hfix]
    unfold Target.IsFixnum at hfix
    obtain hneg | rfl | hpos := Int.lt_trichotomy i 0
    · have hdigits : Nat.digits t.base i.natAbs = [i.natAbs] :=
        Nat.digits_of_lt _ _ (by omega) (by omega)
      simp only [fillIntInfArg, MpzStruct.ofInt, limbCount, hdigits, Int.sign_eq_neg_one_of_neg hneg]
      rw [if_neg (by omega), if_pos (by omega)]
      congr 2
      omega
    · simp [fillIntInfArg, MpzStruct.ofInt]
    · have hdigits : Nat.digits t.base i.natAbs = [i.natAbs] :=
        Nat.digits_of_lt _ _ (by omega) (by omega)
      simp only [fillIntInfArg, MpzStruct.ofInt, limbCount, hdigits, Int.sign_eq_one_of_pos hpos]
      rw [if_neg (by omega), if_neg (by omega)]
      congr 2
      omega
  · have hne : i ≠ 0 := fun h0 => hfix (h0 ▸ isFixnum_zero)
    rw [BigInt.ofInt_big hfix]
    obtain hneg | hpos := Int.lt_or_gt_of_ne hne
    · simp [fillIntInfArg, MpzStruct.ofInt, limbCount, signLimb, hneg, Int.sign_eq_neg_one_of_neg hneg]
    · simp [fillIntInfArg, MpzStruct.ofInt, limbCount, signLimb, Int.not_lt.mpr (Int.le_of_lt hpos),
        Int.sign_eq_one_of_pos hpos]

/-- The test of `finiIntInfRes` for a fixnum. -/
theorem fits_iff {i : ℤ} (hlt : i.natAbs < t.base) :
    (if i < 0 then (i.natAbs + t.base - 1) % t.base else i.natAbs) < t.bound ↔ t.IsFixnum i := by
  unfold Target.IsFixnum
  split
  next hneg =>
    have hmod : (i.natAbs + t.base - 1) % t.base = i.natAbs - 1 := by
      rw [show i.natAbs + t.base - 1 = i.natAbs - 1 + t.base by omega, Nat.add_mod_right,
        Nat.mod_eq_of_lt (by omega)]
    omega
  next hneg => omega

/-- **The answer of the runtime is canonical.** -/
theorem finiIntInfRes_ofInt (i : ℤ) : finiIntInfRes t (.ofInt t i) = BigInt.ofInt t i := by
  unfold finiIntInfRes
  simp only [MpzStruct.natAbs_size_ofInt, MpzStruct.size_ofInt_neg_iff]
  obtain rfl | hne := eq_or_ne i 0
  · simp [limbCount, BigInt.ofInt_zero, BigInt.zero]
  have hpos := limbCount_pos (t := t) hne
  rw [if_neg (by omega)]
  have htake : (Nat.digits t.base i.natAbs).take (limbCount t i) = Nat.digits t.base i.natAbs :=
    List.take_length
  have hbig : BigInt.vector ((if i < 0 then 1 else 0) :: (MpzStruct.ofInt t i).limbs.take (limbCount t i)) =
      .vector (signLimb i :: Nat.digits t.base i.natAbs) := by
    rw [MpzStruct.ofInt, htake, signLimb]
  by_cases hone : limbCount t i ≤ 1
  · have hlt : i.natAbs < t.base := by simpa using limbCount_le_iff.mp hone
    have hdigits : (MpzStruct.ofInt t i).limbs.headD 0 = i.natAbs := by
      rw [MpzStruct.ofInt, Nat.digits_of_lt _ _ (by omega) hlt]
      rfl
    simp only [hdigits, hone, true_and, fits_iff hlt]
    by_cases hfix : t.IsFixnum i
    · have hval : (if i < 0 then -(i.natAbs : ℤ) else i.natAbs) = i := by split <;> omega
      have hword : t.word i = i := by
        unfold Target.IsFixnum at hfix
        exact Target.word_of_lt (by omega) (by omega)
      rw [if_pos hfix, hval, hword, addTag_fixnum hfix, BigInt.ofInt_fixnum hfix]
    · rw [if_neg hfix, hbig, BigInt.ofInt_big hfix]
  · have hfix : ¬ t.IsFixnum i := fun h => hone (limbCount_fixnum h)
    rw [if_neg (fun h => hone h.1), hbig, BigInt.ofInt_big hfix]

end Convert

/-! ## Calls -/

/-- A call of the runtime: `IntInf_binop`, `IntInf_unop` or `IntInf_shop`. -/
inductive RuntimeCall where
  | binop (f : BinFn) (lhs rhs : BigInt)
  | unop (f : UnFn) (arg : BigInt)
  | shop (f : ShFn) (arg : BigInt) (shift : UInt32)

namespace RuntimeCall

variable {t : Target} (mpz : Mpz t)

/-- The struct of the answer. -/
def resmpz : RuntimeCall → MpzStruct
  | binop f lhs rhs => mpz.binop f (fillIntInfArg lhs) (fillIntInfArg rhs)
  | unop f arg => mpz.unop f (fillIntInfArg arg)
  | shop f arg shift => mpz.shop f (fillIntInfArg arg) shift.toNat

/-- The answer. -/
def run (c : RuntimeCall) : BigInt := finiIntInfRes t (c.resmpz mpz)

variable {mpz}

theorem run_binop {f : BinFn} {i j : ℤ} (h : f = .tdivQ ∨ f = .tdivR → j ≠ 0) :
    (binop f (ofInt t i) (ofInt t j)).run mpz = ofInt t (f.exact i j) := by
  simp only [run, resmpz, fillIntInfArg_ofInt, mpz.binop_ofInt f i j h, finiIntInfRes_ofInt]

theorem run_unop (f : UnFn) (i : ℤ) : (unop f (ofInt t i)).run mpz = ofInt t (f.exact i) := by
  simp only [run, resmpz, fillIntInfArg_ofInt, mpz.unop_ofInt, finiIntInfRes_ofInt]

theorem run_shop (f : ShFn) (i : ℤ) (shift : UInt32) :
    (shop f (ofInt t i) shift).run mpz = ofInt t (f.exact i shift.toNat) := by
  simp only [run, resmpz, fillIntInfArg_ofInt, mpz.shop_ofInt, finiIntInfRes_ofInt]

end RuntimeCall

/-- `IntInf_cmpop`. -/
def cmpop {t : Target} (mpz : Mpz t) (lhs rhs : BigInt) : ℤ :=
  let res := mpz.cmp (fillIntInfArg lhs) (fillIntInfArg rhs)
  if res < 0 then -1 else if res > 0 then 1 else 0

theorem cmpop_ofInt {t : Target} {mpz : Mpz t} (i j : ℤ) :
    cmpop mpz (ofInt t i) (ofInt t j) = (i - j).sign := by
  simp only [cmpop, fillIntInfArg_ofInt, ← mpz.cmp_ofInt i j]
  obtain hneg | h0 | hpos := Int.lt_trichotomy (mpz.cmp (.ofInt t i) (.ofInt t j)) 0
  · rw [if_pos hneg, Int.sign_eq_neg_one_of_neg hneg]
  · simp [h0]
  · rw [if_neg (by omega), if_pos hpos, Int.sign_eq_one_of_pos hpos]

end MLton.IntInf
