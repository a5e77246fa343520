import Mathlib.Tactic.Linarith
import Mathlib.Tactic.Ring

/-!
# Ssa/LoopCount — how often a loop runs

A loop counts from a start by steps until a comparison with a bound says to leave it.  `Loop.iterCount` is
meant to be the number of the first iteration that leaves.  For the orders it divides the distance to the
bound by the pace and adds the remainder, where it should add one if there is a remainder: so it counts
right exactly if the remainder is at most one, or the first step already goes past the bound
(`iterCount_iff`).  For the equalities it assumes that the loop is entered at all, and divides by the step.
-/

namespace MLton.Ssa

/-- `Loop.Bound`. -/
inductive Bound where
  | eq (b : ℤ)
  | lt (b : ℤ)
  | gt (b : ℤ)

/-- `Loop.t`. -/
structure Loop where
  start : ℤ
  step : ℤ
  bound : Bound
  invert : Bool

/-- `IntInf.div`, which raises `Div`. -/
def intInfDiv (a b : ℤ) : Option ℤ := if b = 0 then none else some (a.fdiv b)

/-- `IntInf.mod`, which raises `Div`. -/
def intInfMod (a b : ℤ) : Option ℤ := if b = 0 then none else some (a.fmod b)

namespace Loop

/-- `Loop.isInfiniteLoop`. -/
def isInfiniteLoop (l : Loop) : Bool :=
  match l.bound with
  | .eq b =>
    if l.invert then
      if l.start = b then false
      else if l.start < b ∧ l.step > 0 then !decide ((b - l.start).fmod l.step = 0)
      else if l.start > b ∧ l.step < 0 then !decide ((l.start - b).fmod (-l.step) = 0)
      else true
    else l.step = 0
  | .lt b => if l.invert then l.start ≥ b ∧ l.step ≥ 0 else l.start < b ∧ l.step ≤ 0
  | .gt b => if l.invert then l.start ≤ b ∧ l.step ≤ 0 else l.start > b ∧ l.step ≥ 0

/-- `Loop.iters`. -/
def iters (start step max : ℤ) : Option ℤ := do
  let range := max - start
  let iters ← intInfDiv range step
  let adds ← intInfMod range step
  if step > range then some 1 else some (iters + adds)

/-- `Loop.iterCount`. -/
def iterCount (l : Loop) : Option ℤ :=
  match l.bound with
  | .eq b => if l.invert then intInfDiv (b - l.start) l.step else some 1
  | .lt b =>
    match decide (l.start ≥ b), l.invert with
    | true, false => some 0
    | true, true => iters (b - 1) (-l.step) l.start
    | false, true => some 0
    | false, false => iters l.start l.step b
  | .gt b =>
    match decide (l.start ≤ b), l.invert with
    | true, false => some 0
    | true, true => iters l.start l.step (b + 1)
    | false, true => some 0
    | false, false => iters b (-l.step) l.start

/-- The comparison with the bound. -/
def test (l : Loop) (x : ℤ) : Bool :=
  match l.bound with
  | .eq b => x = b
  | .lt b => x < b
  | .gt b => x > b

/-- The loop is left at a value; as in `makeConstants`, it goes on while `test <> invert`. -/
def Exits (l : Loop) (x : ℤ) : Prop := l.test x = l.invert

/-- The first iteration that leaves the loop. -/
def IsTripCount (l : Loop) (n : ℕ) : Prop := IsLeast {k : ℕ | l.Exits (l.start + k * l.step)} n

/-! ## Distance and pace -/

/-- How far it is to where the loop is left, for the orders. -/
def distance (l : Loop) : ℤ :=
  match l.bound, l.invert with
  | .eq b, _ => b - l.start
  | .lt b, false => b - l.start
  | .lt b, true => l.start - b + 1
  | .gt b, false => l.start - b
  | .gt b, true => b + 1 - l.start

/-- How far an iteration gets, for the orders. -/
def pace (l : Loop) : ℤ :=
  match l.bound, l.invert with
  | .eq _, _ => l.step
  | .lt _, false => l.step
  | .lt _, true => -l.step
  | .gt _, false => -l.step
  | .gt _, true => l.step

/-- **When the count is right.** -/
def CountsRight (l : Loop) : Prop :=
  match l.bound with
  | .eq b => if l.invert then l.step ≠ 0 else l.start = b
  | _ => l.distance ≤ 0 ∨ l.distance < l.pace ∨ l.distance % l.pace ≤ 1

/-- The bound is that of an order. -/
def IsOrder (l : Loop) : Prop := ∀ b, l.bound ≠ .eq b

variable {l : Loop} {n : ℕ} {d s : ℤ}

theorem exits_iff (h : l.IsOrder) (k : ℕ) :
    l.Exits (l.start + k * l.step) ↔ l.distance ≤ k * l.pace := by
  obtain ⟨start, step, bound, invert⟩ := l
  cases bound with
  | eq b => exact absurd rfl (h b)
  | lt b => cases invert <;> simp [Exits, test, distance, pace] <;> constructor <;> intro h <;> linarith
  | gt b => cases invert <;> simp [Exits, test, distance, pace] <;> constructor <;> intro h <;> linarith

theorem iters_shift (start : ℤ) {step max : ℤ} : iters start step max = iters 0 step (max - start) := by
  simp only [iters, Int.sub_zero]

/-- **The count**, by distance and pace. -/
theorem iterCount_eq (h : l.IsOrder) :
    l.iterCount = if l.distance ≤ 0 then some 0 else iters 0 l.pace l.distance := by
  obtain ⟨start, step, bound, invert⟩ := l
  cases bound with
  | eq b => exact absurd rfl (h b)
  | lt b =>
    by_cases hle : b ≤ start <;> cases invert
    · simp [iterCount, distance, hle]
    · have hd : ¬ start - b + 1 ≤ 0 := by omega
      simp [iterCount, distance, pace, hle, hd, iters_shift (b - 1), ← sub_add]
    · have hd : ¬ b - start ≤ 0 := by omega
      simp [iterCount, distance, pace, hle, hd, iters_shift start]
    · have hd : start - b + 1 ≤ 0 := by omega
      simp [iterCount, distance, hle, hd]
  | gt b =>
    by_cases hle : start ≤ b <;> cases invert
    · simp [iterCount, distance, hle]
    · have hd : ¬ b + 1 - start ≤ 0 := by omega
      simp [iterCount, distance, pace, hle, hd, iters_shift start]
    · have hd : ¬ start - b ≤ 0 := by omega
      simp [iterCount, distance, pace, hle, hd, iters_shift b]
    · have hd : b + 1 - start ≤ 0 := by omega
      simp [iterCount, distance, hle, hd]

/-- A loop that is entered and not infinite moves towards its bound. -/
theorem pace_pos (h : l.IsOrder) (hinf : l.isInfiniteLoop = false) (hd : 0 < l.distance) : 0 < l.pace := by
  obtain ⟨start, step, bound, invert⟩ := l
  cases bound with
  | eq b => exact absurd rfl (h b)
  | lt b => cases invert <;> simp [isInfiniteLoop, distance, pace] at * <;> omega
  | gt b => cases invert <;> simp [isInfiniteLoop, distance, pace] at * <;> omega

/-- **Dividing the distance by the pace.** -/
theorem iters_eq (hs : 0 < s) :
    iters 0 s d = some (if d < s then 1 else d / s + d % s) := by
  simp only [iters, intInfDiv, intInfMod, Int.sub_zero, if_neg hs.ne']
  rw [Int.fdiv_eq_ediv_of_nonneg d hs.le, Int.fmod_eq_emod_of_nonneg d hs.le]
  split <;> rfl

/-- **The first multiple that reaches a distance.** -/
theorem isLeast_iff (hs : 0 < s) :
    IsLeast {k : ℕ | d ≤ k * s} (n + 1) ↔ n * s < d ∧ d ≤ (n + 1) * s := by
  constructor
  · rintro ⟨hmem, hleast⟩
    refine ⟨?_, by simpa using hmem⟩
    by_contra hge
    have := hleast (show n ∈ {k : ℕ | d ≤ k * s} from not_lt.mp hge)
    omega
  · rintro ⟨hlt, hle⟩
    refine ⟨by simpa using hle, fun k hk => ?_⟩
    by_contra hlt'
    have hmul : (k : ℤ) * s ≤ n * s := mul_le_mul_of_nonneg_right (by omega) hs.le
    exact absurd (hlt.trans_le (hk.trans hmul)) (lt_irrefl _)

/-- **Dividing and adding the remainder** finds it exactly if the remainder is at most one, or the first
step is enough. -/
theorem iters_isLeast_iff (hd : 0 < d) (hs : 0 < s) :
    (∃ n : ℕ, iters 0 s d = some (n : ℤ) ∧ IsLeast {k : ℕ | d ≤ k * s} n) ↔ d < s ∨ d % s ≤ 1 := by
  rw [iters_eq hs]
  have hdiv := Int.emod_add_mul_ediv d s
  have hmod := Int.emod_nonneg d hs.ne'
  have hlt := Int.emod_lt_of_pos d hs
  have hquot := Int.ediv_nonneg hd.le hs.le
  split
  · next hfirst =>
    refine iff_of_true ⟨1, rfl, ?_⟩ (.inl hfirst)
    exact (isLeast_iff (n := 0) hs).mpr ⟨by simpa using hd, by simpa using hfirst.le⟩
  · next hfirst =>
    rw [or_iff_right hfirst]
    obtain ⟨q, hq⟩ := Int.eq_ofNat_of_zero_le hquot
    obtain ⟨r, hr⟩ := Int.eq_ofNat_of_zero_le hmod
    rw [hq, hr] at hdiv
    rw [hr] at hlt
    rw [hq, hr]
    have hpos : 0 < q := by
      by_contra hzero
      obtain rfl : q = 0 := by omega
      simp only [Nat.cast_zero, mul_zero, add_zero] at hdiv
      omega
    obtain ⟨q, rfl⟩ := Nat.exists_eq_succ_of_ne_zero hpos.ne'
    have hmul : (q + 1 : ℤ) * s = q * s + s := by ring
    have hdist : d = r + (q + 1 : ℤ) * s := by
      rw [← hdiv]
      push_cast
      ring
    constructor
    · rintro ⟨n, hn, hleast⟩
      obtain rfl : n = q + r + 1 := by
        have := Option.some.inj hn
        omega
      -- With a larger remainder an earlier multiple reaches the distance.
      have hbefore := ((isLeast_iff hs).mp hleast).1
      by_contra hbig
      have hearly : (q + 2 : ℤ) * s ≤ (q + r : ℕ) * s := mul_le_mul_of_nonneg_right (by omega) hs.le
      have htwo : (q + 2 : ℤ) * s = (q + 1) * s + s := by ring
      omega
    · intro hone
      refine ⟨q + r + 1, by push_cast; ring_nf, (isLeast_iff hs).mpr ?_⟩
      obtain rfl | rfl : r = 0 ∨ r = 1 := by omega
      · constructor <;> push_cast <;> simp only [add_zero] <;> omega
      · push_cast
        have htwo : (q + 1 + 1 : ℤ) * s = (q + 1) * s + s := by ring
        constructor <;> omega

/-- **Counting up to an order.** -/
theorem iterCount_iff_of_isOrder (hl : l.IsOrder) (h : l.isInfiniteLoop = false) :
    (∃ n : ℕ, l.iterCount = some (n : ℤ) ∧ l.IsTripCount n) ↔
      l.distance ≤ 0 ∨ l.distance < l.pace ∨ l.distance % l.pace ≤ 1 := by
  simp only [IsTripCount, exits_iff hl, iterCount_eq hl]
  rcases le_or_gt l.distance 0 with hd | hd
  · rw [if_pos hd]
    refine iff_of_true ⟨0, rfl, ?_, fun k _ => Nat.zero_le k⟩ (.inl hd)
    simpa using hd
  · rw [if_neg hd.not_ge, or_iff_right hd.not_ge]
    exact iters_isLeast_iff hd (pace_pos hl h hd)

/-- **Counting up to an equality**, for a loop that is left when it is met. -/
theorem iterCount_eq_inverted {start step b : ℤ} (hs : step ≠ 0) (hn : b - start = n * step) :
    iterCount ⟨start, step, .eq b, true⟩ = some (n : ℤ) ∧ IsTripCount ⟨start, step, .eq b, true⟩ n := by
  have hexits : start + n * step = b := by omega
  refine ⟨?_, decide_eq_true hexits, fun k hk => ?_⟩
  · simp [iterCount, intInfDiv, hs, hn]
  · have hat : start + k * step = b := by simpa [Exits, test] using hk
    have hmul : (k : ℤ) * step = n * step := by omega
    have := mul_right_cancel₀ hs hmul
    omega

/-- A loop up to an equality that is not infinite meets it after some steps. -/
theorem exists_of_isInfiniteLoop {start step b : ℤ}
    (h : isInfiniteLoop ⟨start, step, .eq b, true⟩ = false) : ∃ n : ℕ, b - start = n * step := by
  rcases lt_trichotomy start b with hlt | rfl | hgt
  · obtain ⟨hup, hmod⟩ : 0 < step ∧ (b - start).fmod step = 0 := by
      simpa [isInfiniteLoop, hlt, hlt.ne, hlt.not_gt] using h
    rw [Int.fmod_eq_emod_of_nonneg _ hup.le] at hmod
    obtain ⟨n, hn⟩ := Int.eq_ofNat_of_zero_le (Int.ediv_nonneg (a := b - start) (by omega) hup.le)
    exact ⟨n, by rw [← hn, Int.ediv_mul_cancel (Int.dvd_of_emod_eq_zero hmod)]⟩
  · exact ⟨0, by simp⟩
  · obtain ⟨hdown, hmod⟩ : step < 0 ∧ (start - b).fmod (-step) = 0 := by
      simpa [isInfiniteLoop, hgt, hgt.ne', hgt.not_gt] using h
    rw [Int.fmod_eq_emod_of_nonneg _ (by omega)] at hmod
    obtain ⟨n, hn⟩ := Int.eq_ofNat_of_zero_le (Int.ediv_nonneg (a := start - b) (b := -step) (by omega)
      (by omega))
    refine ⟨n, ?_⟩
    have hmul := Int.ediv_mul_cancel (Int.dvd_of_emod_eq_zero hmod)
    rw [hn, Int.mul_neg] at hmul
    omega

/-- **`Loop.iterCount` is the trip count exactly for the loops that `CountsRight` describes.** -/
theorem iterCount_iff (l : Loop) (h : l.isInfiniteLoop = false) :
    (∃ n : ℕ, l.iterCount = some (n : ℤ) ∧ l.IsTripCount n) ↔ l.CountsRight := by
  obtain ⟨start, step, bound, invert⟩ := l
  cases bound with
  | eq b =>
    cases invert with
    | true =>
      change _ ↔ step ≠ 0
      constructor
      · rintro ⟨n, hn, -⟩ rfl
        exact absurd hn (by simp [iterCount, intInfDiv])
      · intro hs
        obtain ⟨n, hn⟩ := exists_of_isInfiniteLoop h
        exact ⟨n, iterCount_eq_inverted hs hn⟩
    | false =>
      change _ ↔ start = b
      have hs : step ≠ 0 := by simpa [isInfiniteLoop] using h
      constructor
      · rintro ⟨n, hn, -, hleast⟩
        obtain rfl : 1 = n := by exact_mod_cast Option.some.inj hn
        by_contra hne
        have := hleast (show 0 ∈ _ by simpa [Exits, test] using hne)
        omega
      · rintro rfl
        refine ⟨1, rfl, by simpa [Exits, test] using hs, fun k hk => ?_⟩
        by_contra hlt
        obtain rfl : k = 0 := by omega
        simp [Exits, test] at hk
  | lt b => exact iterCount_iff_of_isOrder (by simp [IsOrder]) h
  | gt b => exact iterCount_iff_of_isOrder (by simp [IsOrder]) h

/-! ## Counting by threes -/

/-- From zero by threes up to eight. -/
def byThrees : Loop := ⟨0, 3, .lt 8, false⟩

theorem iterCount_iff_byThrees : byThrees.isInfiniteLoop = false ∧
    ¬ ∃ n : ℕ, byThrees.iterCount = some (n : ℤ) ∧ byThrees.IsTripCount n := by
  refine ⟨by decide, fun h => ?_⟩
  have := (iterCount_iff byThrees (by decide)).mp h
  revert this
  simp [CountsRight, byThrees, distance, pace]

/-- **By threes, eight is passed at the third step**, but the count is four. -/
theorem byThrees_iterCount : ¬ ∀ l : Loop, l.isInfiniteLoop = false →
    ∃ n : ℕ, l.iterCount = some (n : ℤ) ∧ l.IsTripCount n := by
  intro h
  obtain ⟨n, hn, -, hleast⟩ := h byThrees (by decide)
  have hfour : byThrees.iterCount = some 4 := by decide
  obtain rfl : n = 4 := by exact_mod_cast Option.some.inj (hn.symm.trans hfour)
  have hthree : byThrees.Exits (byThrees.start + (3 : ℕ) * byThrees.step) := rfl
  have := hleast hthree
  omega

end Loop

end MLton.Ssa
