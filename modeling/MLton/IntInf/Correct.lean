import MLton.IntInf.Operations

/-!
# IntInf/Correct — the operations compute on the integers

Every call with canonical arguments gives what integer arithmetic gives, in canonical form again, but for
one: the greatest common divisor of two fixnums is tagged without a test, and the absolute value of the
least fixnum is no fixnum.  `returns_iff` says exactly when a call is right.
-/

namespace MLton.IntInf

open BigInt

/-! ## Calls -/

/-- A call of an operation. -/
inductive Call (α : Type) where
  | add (x y : α)
  | sub (x y : α)
  | mul (x y : α)
  | neg (x : α)
  | abs (x : α)
  | quot (x y : α)
  | rem (x y : α)
  | div (x y : α)
  | mod (x y : α)
  | gcd (x y : α)
  | andb (x y : α)
  | orb (x y : α)
  | xorb (x y : α)
  | notb (x : α)
  | lshift (x : α) (shift : UInt32)
  | rashift (x : α) (shift : UInt32)
  | compare (x y : α)
  | lt (x y : α)
  | le (x y : α)
  | gt (x y : α)
  | ge (x y : α)

/-- What a call returns. -/
inductive Outcome (α : Type) where
  | int (i : α)
  | order (o : Ordering)
  | bool (b : Bool)
  deriving DecidableEq

/-- The outcome on other numbers. -/
def Outcome.map {α β : Type} (f : α → β) : Outcome α → Outcome β
  | int i => .int (f i)
  | order o => .order o
  | bool b => .bool b

namespace Call

/-- The arguments. -/
def args {α : Type} : Call α → List α
  | add x y | sub x y | mul x y | quot x y | rem x y | div x y | mod x y | gcd x y => [x, y]
  | andb x y | orb x y | xorb x y | compare x y | lt x y | le x y | gt x y | ge x y => [x, y]
  | neg x | abs x | notb x | lshift x _ | rashift x _ => [x]

/-- The call on other numbers. -/
def map {α β : Type} (f : α → β) : Call α → Call β
  | add x y => add (f x) (f y)
  | sub x y => sub (f x) (f y)
  | mul x y => mul (f x) (f y)
  | neg x => neg (f x)
  | abs x => abs (f x)
  | quot x y => quot (f x) (f y)
  | rem x y => rem (f x) (f y)
  | div x y => div (f x) (f y)
  | mod x y => mod (f x) (f y)
  | gcd x y => gcd (f x) (f y)
  | andb x y => andb (f x) (f y)
  | orb x y => orb (f x) (f y)
  | xorb x y => xorb (f x) (f y)
  | notb x => notb (f x)
  | lshift x shift => lshift (f x) shift
  | rashift x shift => rashift (f x) shift
  | compare x y => compare (f x) (f y)
  | lt x y => lt (f x) (f y)
  | le x y => le (f x) (f y)
  | gt x y => gt (f x) (f y)
  | ge x y => ge (f x) (f y)

/-- What the operation returns. -/
def run {t : Target} (mpz : Mpz t) : Call BigInt → Except Exn (Outcome BigInt)
  | add x y => .ok (.int ((bigAdd t x y).int mpz))
  | sub x y => .ok (.int ((bigSub t x y).int mpz))
  | mul x y => .ok (.int ((bigMul t x y).int mpz))
  | neg x => .ok (.int ((bigNeg t x).int mpz))
  | abs x => .ok (.int ((bigAbs t x).int mpz))
  | quot x y => (bigQuot t x y).map fun r => .int (r.int mpz)
  | rem x y => (bigRem t x y).map fun r => .int (r.int mpz)
  | div x y => (bigDiv mpz x y).map .int
  | mod x y => (bigMod mpz x y).map .int
  | gcd x y => (bigGcd t x y).map fun r => .int (r.int mpz)
  | andb x y => .ok (.int ((bigAndb t x y).int mpz))
  | orb x y => .ok (.int ((bigOrb t x y).int mpz))
  | xorb x y => .ok (.int ((bigXorb t x y).int mpz))
  | notb x => .ok (.int ((bigNotb t x).int mpz))
  | lshift x shift => .ok (.int ((bigLshift t x shift).int mpz))
  | rashift x shift => .ok (.int ((bigRashift t x shift).int mpz))
  | compare x y => .ok (.order (bigCompare mpz x y))
  | lt x y => .ok (.bool (bigLT mpz x y))
  | le x y => .ok (.bool (bigLE mpz x y))
  | gt x y => .ok (.bool (bigGT mpz x y))
  | ge x y => .ok (.bool (bigGE mpz x y))

/-- What integer arithmetic gives: `div` and `mod` round down, `quot` and `rem` towards zero. -/
def exact : Call ℤ → Except Exn (Outcome ℤ)
  | add x y => .ok (.int (x + y))
  | sub x y => .ok (.int (x - y))
  | mul x y => .ok (.int (x * y))
  | neg x => .ok (.int (-x))
  | abs x => .ok (.int x.natAbs)
  | quot x y => if y = 0 then .error .div else .ok (.int (x.tdiv y))
  | rem x y => if y = 0 then .error .div else .ok (.int (x.tmod y))
  | div x y => if y = 0 then .error .div else .ok (.int (x.fdiv y))
  | mod x y => if y = 0 then .error .div else .ok (.int (x.fmod y))
  | gcd x y => .ok (.int (x.gcd y))
  | andb x y => .ok (.int (x.land y))
  | orb x y => .ok (.int (x.lor y))
  | xorb x y => .ok (.int (x.xor y))
  | notb x => .ok (.int x.lnot)
  | lshift x shift => .ok (.int (x * 2 ^ shift.toNat))
  | rashift x shift => .ok (.int (x / 2 ^ shift.toNat))
  | compare x y => .ok (.order (Ord.compare x y))
  | lt x y => .ok (.bool (x < y))
  | le x y => .ok (.bool (x ≤ y))
  | gt x y => .ok (.bool (x > y))
  | ge x y => .ok (.bool (x ≥ y))

end Call

/-- A result is the right one: the same exception, or the same outcome with the integer in canonical form. -/
def Returns (t : Target) : Except Exn (Outcome BigInt) → Except Exn (Outcome ℤ) → Prop
  | .ok (.int r), .ok (.int i) => Canonical t r ∧ value t r = i
  | .ok (.order o), .ok (.order o') => o = o'
  | .ok (.bool b), .ok (.bool b') => b = b'
  | .error e, .error e' => e = e'
  | _, _ => False

/-- The call asks for the greatest common divisor of two integers that are zero or the least fixnum, and
not both zero. -/
def GcdOfLeast (t : Target) : Call ℤ → Prop
  | .gcd x y => (x = 0 ∨ x = -t.bound) ∧ (y = 0 ∨ y = -t.bound) ∧ ¬ (x = 0 ∧ y = 0)
  | _ => False

/-! ## Division that rounds down -/

section Div

theorem fdiv_of_pos_of_neg {x y : ℤ} (hx : 0 < x) (hy : y < 0) : x.fdiv y = (x - 1).tdiv y - 1 := by
  obtain ⟨m, rfl⟩ : ∃ m : ℕ, x = (m + 1 : ℕ) := ⟨(x - 1).toNat, by omega⟩
  obtain ⟨n, rfl⟩ := Int.eq_negSucc_of_lt_zero hy
  have hfdiv : ((m + 1 : ℕ) : ℤ).fdiv (.negSucc n) = .negSucc (m / (n + 1)) := rfl
  have htdiv : (m : ℤ).tdiv (.negSucc n) = -(m / (n + 1) : ℕ) := rfl
  rw [hfdiv, Nat.cast_succ, add_sub_cancel_right, htdiv, Int.negSucc_eq]
  ring

theorem fdiv_of_neg_of_pos {x y : ℤ} (hx : x < 0) (hy : 0 < y) : x.fdiv y = (x + 1).tdiv y - 1 := by
  have h := fdiv_of_pos_of_neg (x := -x) (y := -y) (by omega) (by omega)
  rwa [Int.neg_fdiv_neg, show -x - 1 = -(x + 1) by ring, Int.neg_tdiv_neg] at h

theorem fdiv_of_neg_of_neg {x y : ℤ} (hx : x < 0) (hy : y < 0) : x.fdiv y = x.tdiv y := by
  have h := Int.fdiv_eq_tdiv_of_nonneg (a := -x) (b := -y) (by omega) (by omega)
  rwa [Int.neg_fdiv_neg, Int.neg_tdiv_neg] at h

theorem fmod_of_pos_of_neg {x y : ℤ} (hx : 0 < x) (hy : y < 0) :
    x.fmod y = (x - 1).tmod y + (1 + y) := by
  rw [Int.fmod_def, Int.tmod_def, fdiv_of_pos_of_neg hx hy]
  ring

theorem fmod_of_neg_of_pos {x y : ℤ} (hx : x < 0) (hy : 0 < y) :
    x.fmod y = (x + 1).tmod y + (y - 1) := by
  rw [Int.fmod_def, Int.tmod_def, fdiv_of_neg_of_pos hx hy]
  ring

theorem fmod_of_neg_of_neg {x y : ℤ} (hx : x < 0) (hy : y < 0) : x.fmod y = x.tmod y := by
  rw [Int.fmod_def, Int.tmod_def, fdiv_of_neg_of_neg hx hy]

end Div

/-! ## What each operation computes -/

section Computes

variable {t : Target} (mpz : Mpz t) (i j : ℤ)

theorem bigAdd_int : (bigAdd t (ofInt t i) (ofInt t j)).int mpz = ofInt t (i + j) := by
  rw [bigAdd, makeArith_ofInt]
  split
  · rfl
  · exact RuntimeCall.run_binop (by simp)

theorem bigSub_int : (bigSub t (ofInt t i) (ofInt t j)).int mpz = ofInt t (i - j) := by
  rw [bigSub, makeArith_ofInt]
  split
  · rfl
  · exact RuntimeCall.run_binop (by simp)

theorem bigMul_int : (bigMul t (ofInt t i) (ofInt t j)).int mpz = ofInt t (i * j) := by
  rw [bigMul, makeArith_ofInt]
  split
  · rfl
  · exact RuntimeCall.run_binop (by simp)

theorem bigNeg_int : (bigNeg t (ofInt t i)).int mpz = ofInt t (-i) := by
  rw [bigNeg_ofInt]
  split
  · rfl
  · exact RuntimeCall.run_unop .neg i

theorem bigAbs_int : (bigAbs t (ofInt t i)).int mpz = ofInt t i.natAbs := by
  rw [bigAbs_ofInt]
  split
  · rfl
  next h =>
    rw [show (i.natAbs : ℤ) = -i by omega]
    exact RuntimeCall.run_unop .neg i

variable {i j} in
theorem bigQuot_int (h0 : j ≠ 0) :
    (bigQuot t (ofInt t i) (ofInt t j)).map (·.int mpz) = .ok (ofInt t (i.tdiv j)) := by
  rw [bigQuot_ofInt h0]
  split
  · rfl
  · exact congrArg Except.ok (RuntimeCall.run_binop fun _ => h0)

variable {i j} in
theorem bigRem_int (h0 : j ≠ 0) :
    (bigRem t (ofInt t i) (ofInt t j)).map (·.int mpz) = .ok (ofInt t (i.tmod j)) := by
  rw [bigRem_ofInt h0]
  split
  · rfl
  · exact congrArg Except.ok (RuntimeCall.run_binop fun _ => h0)

theorem bigAndb_int : (bigAndb t (ofInt t i) (ofInt t j)).int mpz = ofInt t (i.land j) := by
  rw [bigAndb_ofInt]
  split
  · rfl
  · exact RuntimeCall.run_binop (by simp)

theorem bigOrb_int : (bigOrb t (ofInt t i) (ofInt t j)).int mpz = ofInt t (i.lor j) := by
  rw [bigOrb_ofInt]
  split
  · rfl
  · exact RuntimeCall.run_binop (by simp)

theorem bigXorb_int : (bigXorb t (ofInt t i) (ofInt t j)).int mpz = ofInt t (i.xor j) := by
  rw [bigXorb_ofInt]
  split
  · rfl
  · exact RuntimeCall.run_binop (by simp)

theorem bigNotb_int : (bigNotb t (ofInt t i)).int mpz = ofInt t i.lnot := by
  rw [bigNotb_ofInt]
  split
  · rfl
  · exact RuntimeCall.run_unop .com i

theorem bigLshift_int (shift : UInt32) :
    (bigLshift t (ofInt t i) shift).int mpz = ofInt t (i * 2 ^ shift.toNat) := by
  unfold bigLshift
  split
  next h => simp [h, Reply.int]
  · exact RuntimeCall.run_shop .mul2Exp i shift

theorem bigRashift_int (shift : UInt32) :
    (bigRashift t (ofInt t i) shift).int mpz = ofInt t (i / 2 ^ shift.toNat) := by
  unfold bigRashift
  split
  next h => simp [h, Reply.int]
  · exact RuntimeCall.run_shop .fdivQ2Exp i shift

/-! ## Comparisons -/

theorem bigCompare_ofInt : bigCompare mpz (ofInt t i) (ofInt t j) = compare i j := by
  refine makeCompare_ofInt mpz (fun i j => ?_) fun i j => ?_
  · obtain h | rfl | h := lt_trichotomy i j
    · rw [compare_lt_iff_lt.mpr h, compare_lt_iff_lt]
      omega
    · rw [compare_eq_iff_eq.mpr rfl, compare_eq_iff_eq.mpr rfl]
    · rw [compare_gt_iff_gt.mpr h, compare_gt_iff_gt]
      omega
  · obtain h | rfl | h := lt_trichotomy i j
    · rw [compare_lt_iff_lt.mpr h, compare_lt_iff_lt, Int.sign_neg_iff]
      omega
    · simp
    · rw [compare_gt_iff_gt.mpr h, compare_gt_iff_gt, Int.sign_pos_iff]
      omega

theorem bigLT_ofInt : bigLT mpz (ofInt t i) (ofInt t j) = decide (i < j) := by
  refine makeCompare_ofInt mpz (fun i j => ?_) fun i j => ?_
  · rw [decide_eq_decide]
    omega
  · rw [decide_eq_decide, Int.sign_neg_iff]
    omega

theorem bigLE_ofInt : bigLE mpz (ofInt t i) (ofInt t j) = decide (i ≤ j) := by
  refine makeCompare_ofInt mpz (fun i j => ?_) fun i j => ?_
  · rw [decide_eq_decide]
    omega
  · rw [decide_eq_decide, ← not_lt, Int.sign_pos_iff]
    omega

theorem bigGT_ofInt : bigGT mpz (ofInt t i) (ofInt t j) = decide (i > j) := by
  refine makeCompare_ofInt mpz (fun i j => ?_) fun i j => ?_
  · rw [decide_eq_decide]
    omega
  · rw [decide_eq_decide, gt_iff_lt, Int.sign_pos_iff]
    omega

theorem bigGE_ofInt : bigGE mpz (ofInt t i) (ofInt t j) = decide (i ≥ j) := by
  refine makeCompare_ofInt mpz (fun i j => ?_) fun i j => ?_
  · rw [decide_eq_decide]
    omega
  · rw [decide_eq_decide, ge_iff_le, Int.sign_nonneg_iff]
    omega

end Computes

/-! ## `div` and `mod` -/

section DivMod

variable {t : Target} (mpz : Mpz t) (i j : ℤ)

theorem bigGE_zero : bigGE mpz (ofInt t i) zero = decide (i ≥ 0) := ofInt_zero (t := t) ▸ bigGE_ofInt mpz i 0

theorem bigGT_zero : bigGT mpz (ofInt t i) zero = decide (i > 0) := ofInt_zero (t := t) ▸ bigGT_ofInt mpz i 0

theorem bigLT_zero : bigLT mpz (ofInt t i) zero = decide (i < 0) := ofInt_zero (t := t) ▸ bigLT_ofInt mpz i 0

theorem bigDiv_zero : bigDiv mpz (ofInt t i) (ofInt t 0) = .error .div := by
  simp only [bigDiv, bigGE_zero, bigGT_zero, bigLT_zero, gt_iff_lt, lt_irrefl, decide_false,
    Bool.false_eq_true, if_false, ite_self]

theorem bigMod_zero : bigMod mpz (ofInt t i) (ofInt t 0) = .error .div := by
  simp only [bigMod, bigGE_zero, bigGT_zero, bigLT_zero, gt_iff_lt, lt_irrefl, decide_false,
    Bool.false_eq_true, if_false, ite_self]

variable {i j}

/-- What follows a quotient or a remainder of the runtime. -/
theorem bind_int {r : Except Exn Reply} {k : ℤ} (h : r.map (·.int mpz) = .ok (ofInt t k))
    {f : BigInt → BigInt} : (do let q ← r; .ok (f (q.int mpz)) : Except Exn BigInt) = .ok (f (ofInt t k)) := by
  cases r with
  | error e => nomatch h
  | ok q =>
    have hq : q.int mpz = ofInt t k := Except.ok.inj h
    simp only [bind, Except.bind, hq]

theorem bigDiv_ofInt (h0 : j ≠ 0) : bigDiv mpz (ofInt t i) (ofInt t j) = .ok (ofInt t (i.fdiv j)) := by
  simp only [bigDiv, bigGE_zero, bigGT_zero, bigLT_zero, decide_eq_true_eq, ofInt_eq_zero_iff,
    ← ofInt_one (t := t), bigSub_int, bigAdd_int]
  split
  next hx =>
    split
    next hy =>
      rw [Int.fdiv_eq_tdiv_of_nonneg hx (by omega)]
      exact bind_int (f := id) mpz (bigQuot_int mpz h0)
    next hy =>
      rw [if_pos (by omega)]
      split
      next hx0 => rw [hx0, Int.zero_fdiv, ofInt_zero]
      next hx0 =>
        rw [fdiv_of_pos_of_neg (by omega) (by omega), ← bigSub_int mpz ((i - 1).tdiv j) 1]
        exact bind_int (f := fun q => (bigSub t q (ofInt t 1)).int mpz) mpz (bigQuot_int mpz h0)
  next hx =>
    split
    next hy =>
      rw [fdiv_of_neg_of_neg (by omega) hy]
      exact bind_int (f := id) mpz (bigQuot_int mpz h0)
    next hy =>
      rw [if_pos (by omega), fdiv_of_neg_of_pos (by omega) (by omega), ← bigSub_int mpz ((i + 1).tdiv j) 1]
      exact bind_int (f := fun q => (bigSub t q (ofInt t 1)).int mpz) mpz (bigQuot_int mpz h0)

theorem bigMod_ofInt (h0 : j ≠ 0) : bigMod mpz (ofInt t i) (ofInt t j) = .ok (ofInt t (i.fmod j)) := by
  simp only [bigMod, bigGE_zero, bigGT_zero, bigLT_zero, decide_eq_true_eq, ofInt_eq_zero_iff,
    ← ofInt_one (t := t), bigSub_int, bigAdd_int]
  split
  next hx =>
    split
    next hy =>
      rw [Int.fmod_eq_tmod_of_nonneg hx (by omega)]
      exact bind_int (f := id) mpz (bigRem_int mpz h0)
    next hy =>
      rw [if_pos (by omega)]
      split
      next hx0 => rw [hx0, Int.zero_fmod, ofInt_zero]
      next hx0 =>
        rw [fmod_of_pos_of_neg (by omega) (by omega), ← bigAdd_int mpz ((i - 1).tmod j) (1 + j)]
        exact bind_int (f := fun r => (bigAdd t r (ofInt t (1 + j))).int mpz) mpz (bigRem_int mpz h0)
  next hx =>
    split
    next hy =>
      rw [fmod_of_neg_of_neg (by omega) hy]
      exact bind_int (f := id) mpz (bigRem_int mpz h0)
    next hy =>
      rw [if_pos (by omega), fmod_of_neg_of_pos (by omega) (by omega),
        ← bigAdd_int mpz ((i + 1).tmod j) (j - 1)]
      exact bind_int (f := fun r => (bigAdd t r (ofInt t (j - 1))).int mpz) mpz (bigRem_int mpz h0)

end DivMod

/-! ## The greatest common divisor -/

section Gcd

variable {t : Target} {i j : ℤ}

theorem gcd_eq_bound_iff (hi : t.IsFixnum i) (hj : t.IsFixnum j) :
    i.gcd j = t.bound ↔ GcdOfLeast t (.gcd i j) := by
  have hpos := t.bound_pos
  constructor
  · intro h
    have hdvdi : t.bound ∣ i.natAbs := h ▸ Int.gcd_dvd_natAbs_left i j
    have hdvdj : t.bound ∣ j.natAbs := h ▸ Int.gcd_dvd_natAbs_right i j
    have hcase : ∀ {k : ℤ}, t.IsFixnum k → t.bound ∣ k.natAbs → k = 0 ∨ k = -t.bound := by
      intro k hk hdvd
      unfold Target.IsFixnum at hk
      obtain h0 | hpos' := Nat.eq_zero_or_pos k.natAbs
      · omega
      · have := Nat.le_of_dvd hpos' hdvd
        omega
    refine ⟨hcase hi hdvdi, hcase hj hdvdj, ?_⟩
    rintro ⟨rfl, rfl⟩
    rw [Int.gcd_zero_left, Int.natAbs_zero] at h
    omega
  · rintro ⟨rfl | rfl, rfl | rfl, hne⟩
    · exact absurd ⟨rfl, rfl⟩ hne
    · simp
    · simp
    · simp

theorem bigGcd_int (mpz : Mpz t) (h : ¬ GcdOfLeast t (.gcd i j)) :
    (bigGcd t (ofInt t i) (ofInt t j)).map (·.int mpz) = .ok (ofInt t (i.gcd j)) := by
  have hpos := t.bound_pos
  rw [bigGcd_ofInt]
  split
  next hsmall =>
    obtain ⟨hi, hj⟩ := hsmall
    have hle := gcd_le_bound hi hj
    have hne := mt (gcd_eq_bound_iff hi hj).mp h
    have hfix : t.IsFixnum (i.gcd j) := by
      unfold Target.IsFixnum
      omega
    rw [addTag_fixnum hfix, ofInt_fixnum hfix]
    rfl
  · exact congrArg Except.ok (RuntimeCall.run_binop (by simp))

/-- The tag of a greatest common divisor that is no fixnum makes it negative. -/
theorem bigGcd_of_least (h : GcdOfLeast t (.gcd i j)) :
    bigGcd t (ofInt t i) (ofInt t j) = .ok (.done (ofInt t (-t.bound))) := by
  have hpos := t.bound_pos
  have hfix : ∀ {k : ℤ}, k = 0 ∨ k = -t.bound → t.IsFixnum k := by
    intro k hk
    unfold Target.IsFixnum
    omega
  have hi := hfix h.1
  have hj := hfix h.2.1
  rw [bigGcd_ofInt, if_pos ⟨hi, hj⟩, (gcd_eq_bound_iff hi hj).mpr h,
    addTag_eq (j := -t.bound) 1 (by ring) (by omega) (by omega), ofInt_fixnum isFixnum_bad]

end Gcd

/-! ## All calls -/

section Main

variable {t : Target}

theorem returns_map_ofInt : ∀ e : Except Exn (Outcome ℤ), Returns t (e.map (Outcome.map (ofInt t))) e
  | .ok (.int i) => ⟨canonical_ofInt i, value_ofInt i⟩
  | .ok (.order _) => rfl
  | .ok (.bool _) => rfl
  | .error _ => rfl

/-- A result that is mapped twice. -/
theorem map_int {r : Except Exn Reply} {mpz : Mpz t} {i : ℤ} (h : r.map (·.int mpz) = .ok (ofInt t i)) :
    r.map (fun q => Outcome.int (q.int mpz)) = .ok (.int (ofInt t i)) := by
  cases r with
  | error e => nomatch h
  | ok q =>
    have hq : q.int mpz = ofInt t i := Except.ok.inj h
    simp only [Except.map, hq]

/-- **Every call but one computes on the integers.** -/
theorem run_ofInt (mpz : Mpz t) (c : Call ℤ) (h : ¬ GcdOfLeast t c) :
    (c.map (ofInt t)).run mpz = c.exact.map (Outcome.map (ofInt t)) := by
  cases c with
  | add x y => exact congrArg (Except.ok ∘ Outcome.int) (bigAdd_int mpz x y)
  | sub x y => exact congrArg (Except.ok ∘ Outcome.int) (bigSub_int mpz x y)
  | mul x y => exact congrArg (Except.ok ∘ Outcome.int) (bigMul_int mpz x y)
  | neg x => exact congrArg (Except.ok ∘ Outcome.int) (bigNeg_int mpz x)
  | abs x => exact congrArg (Except.ok ∘ Outcome.int) (bigAbs_int mpz x)
  | quot x y =>
    obtain rfl | h0 := eq_or_ne y 0
    · simp [Call.run, Call.map, Call.exact, bigQuot_zero, Except.map]
    · rw [Call.exact, if_neg h0]
      exact map_int (bigQuot_int mpz h0)
  | rem x y =>
    obtain rfl | h0 := eq_or_ne y 0
    · simp [Call.run, Call.map, Call.exact, bigRem_zero, Except.map]
    · rw [Call.exact, if_neg h0]
      exact map_int (bigRem_int mpz h0)
  | div x y =>
    obtain rfl | h0 := eq_or_ne y 0
    · simp [Call.run, Call.map, Call.exact, bigDiv_zero, Except.map]
    · rw [Call.exact, if_neg h0]
      exact congrArg (Except.map Outcome.int) (bigDiv_ofInt mpz h0)
  | mod x y =>
    obtain rfl | h0 := eq_or_ne y 0
    · simp [Call.run, Call.map, Call.exact, bigMod_zero, Except.map]
    · rw [Call.exact, if_neg h0]
      exact congrArg (Except.map Outcome.int) (bigMod_ofInt mpz h0)
  | gcd x y => exact map_int (bigGcd_int mpz h)
  | andb x y => exact congrArg (Except.ok ∘ Outcome.int) (bigAndb_int mpz x y)
  | orb x y => exact congrArg (Except.ok ∘ Outcome.int) (bigOrb_int mpz x y)
  | xorb x y => exact congrArg (Except.ok ∘ Outcome.int) (bigXorb_int mpz x y)
  | notb x => exact congrArg (Except.ok ∘ Outcome.int) (bigNotb_int mpz x)
  | lshift x shift => exact congrArg (Except.ok ∘ Outcome.int) (bigLshift_int mpz x shift)
  | rashift x shift => exact congrArg (Except.ok ∘ Outcome.int) (bigRashift_int mpz x shift)
  | compare x y => exact congrArg (Except.ok ∘ Outcome.order) (bigCompare_ofInt mpz x y)
  | lt x y => exact congrArg (Except.ok ∘ Outcome.bool) (bigLT_ofInt mpz x y)
  | le x y => exact congrArg (Except.ok ∘ Outcome.bool) (bigLE_ofInt mpz x y)
  | gt x y => exact congrArg (Except.ok ∘ Outcome.bool) (bigGT_ofInt mpz x y)
  | ge x y => exact congrArg (Except.ok ∘ Outcome.bool) (bigGE_ofInt mpz x y)

/-- **The call that is wrong.** -/
theorem not_returns_of_least (mpz : Mpz t) {c : Call ℤ} (h : GcdOfLeast t c) :
    ¬ Returns t ((c.map (ofInt t)).run mpz) c.exact := by
  have hpos := t.bound_pos
  cases c with
  | gcd i j =>
    simp only [Call.map, Call.run, bigGcd_of_least h, Except.map, Reply.int, Call.exact]
    rintro ⟨-, hvalue⟩
    rw [value_ofInt] at hvalue
    omega
  | _ => exact absurd h id

/-- The canonical arguments of a call are those of a call on integers. -/
theorem map_value_map_ofInt {c : Call BigInt} (h : ∀ x ∈ c.args, Canonical t x) :
    (c.map (value t)).map (ofInt t) = c := by
  have hx : ∀ x ∈ c.args, ofInt t (value t x) = x := fun x hx => canonical_iff.mp (h x hx)
  cases c <;> simp_all [Call.map, Call.args]

/-- **Calls return what integer arithmetic gives**, in canonical form, but for the greatest common divisors
of the least fixnum with itself and with zero. -/
theorem returns_iff (mpz : Mpz t) (c : Call BigInt) (h : ∀ x ∈ c.args, Canonical t x) :
    Returns t (c.run mpz) (c.map (value t)).exact ↔ ¬ GcdOfLeast t (c.map (value t)) := by
  have hc := map_value_map_ofInt h
  constructor
  · intro hret hleast
    refine not_returns_of_least mpz hleast ?_
    rwa [hc]
  · intro hleast
    rw [← hc, run_ofInt mpz _ hleast, hc]
    exact returns_map_ofInt _

/-- Negation of the least fixnum, which is no fixnum. -/
theorem returns_iff_neg_least :
    Returns .bits64 ((Call.neg (.word (-2 ^ 63 + 1))).run (.reference .bits64)) (.ok (.int (2 ^ 62))) :=
  (returns_iff (.reference .bits64) (.neg (.word (-2 ^ 63 + 1))) (by
    intro x hx
    obtain rfl := List.mem_singleton.mp hx
    exact Canonical.small (t := .bits64) (i := -2 ^ 62) (by decide))).mpr id

/-- The greatest common divisor of the least fixnum and zero comes out negative. -/
theorem gcd_least_zero :
    Canonical .bits64 (.word (-2 ^ 63 + 1)) ∧ Canonical .bits64 zero ∧
      ¬ Returns .bits64 ((Call.gcd (.word (-2 ^ 63 + 1)) zero).run (.reference .bits64))
        ((Call.gcd (.word (-2 ^ 63 + 1)) zero).map (value .bits64)).exact := by
  refine ⟨Canonical.small (t := .bits64) (i := -2 ^ 62) (by decide),
    Canonical.small (t := .bits64) (i := 0) (by decide), ?_⟩
  exact not_returns_of_least (t := .bits64) (c := .gcd (-2 ^ 62) 0) _
    ⟨.inr (by decide), .inl rfl, by decide⟩

end Main

end MLton.IntInf
