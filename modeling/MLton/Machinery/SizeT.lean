import Mathlib.Data.Nat.ModEq
import Mathlib.Tactic.Ring

/-!
# Machinery/SizeT — unsigned sizes of a machine

Numbers of a width of bits, whose sums, differences and products wrap around; the bound of a size is a
hypothesis where it matters.  Alignments are powers of two, so that masking is leaving a remainder off.
-/

namespace MLton.SizeT

variable (w : ℕ)

/-- `SIZE_MAX`. -/
def max : ℕ := 2 ^ w - 1

def add (a b : ℕ) : ℕ := (a + b) % 2 ^ w

def sub (a b : ℕ) : ℕ := (a + 2 ^ w - b) % 2 ^ w

def mul (a b : ℕ) : ℕ := (a * b) % 2 ^ w

def alignDown (a b : ℕ) : ℕ := a - a % b

def align (a b : ℕ) : ℕ := alignDown (add w a (b - 1)) b

variable {w} {a b c : ℕ}

theorem add_lt : add w a b < 2 ^ w := Nat.mod_lt _ (Nat.two_pow_pos w)

theorem sub_lt : sub w a b < 2 ^ w := Nat.mod_lt _ (Nat.two_pow_pos w)

/-- A sum that does not wrap around. -/
theorem add_eq (h : a + b < 2 ^ w) : add w a b = a + b := Nat.mod_eq_of_lt h

/-- A difference that does not wrap around. -/
theorem sub_eq (hb : b ≤ a) (ha : a < 2 ^ w) : sub w a b = a - b := by
  rw [sub, show a + 2 ^ w - b = a - b + 2 ^ w by omega, Nat.add_mod_right, Nat.mod_eq_of_lt (by omega)]

theorem mul_eq (h : a * b < 2 ^ w) : mul w a b = a * b := Nat.mod_eq_of_lt h

theorem dvd_alignDown : b ∣ alignDown a b := Nat.dvd_sub_mod a

theorem alignDown_le : alignDown a b ≤ a := Nat.sub_le ..

theorem dvd_align : b ∣ align w a b := dvd_alignDown

/-- The least multiple from `a` on, when the sum does not wrap around. -/
theorem align_spec (hb : 0 < b) (h : a + (b - 1) < 2 ^ w) :
    a ≤ align w a b ∧ align w a b ≤ a + (b - 1) ∧ ∀ c, b ∣ c → a ≤ c → align w a b ≤ c := by
  have hmod := Nat.mod_lt (a + (b - 1)) hb
  rw [align, add_eq h]
  refine ⟨by unfold alignDown; omega, alignDown_le, fun c hc hle => ?_⟩
  by_contra hlt
  have hdvd : b ∣ alignDown (a + (b - 1)) b - c := Nat.dvd_sub dvd_alignDown hc
  have := Nat.le_of_dvd (by omega) hdvd
  have : alignDown (a + (b - 1)) b ≤ a + (b - 1) := alignDown_le
  omega

/-- A multiple is aligned. -/
theorem align_of_dvd (hb : 0 < b) (h : a + (b - 1) < 2 ^ w) (hdvd : b ∣ a) : align w a b = a := by
  obtain ⟨hle, -, hleast⟩ := align_spec hb h
  exact le_antisymm (hleast a hdvd le_rfl) hle

/-- **Alignment is monotone.** -/
theorem align_mono (hb : 0 < b) (h : c + (b - 1) < 2 ^ w) (hle : a ≤ c) : align w a b ≤ align w c b := by
  obtain ⟨hc, -, -⟩ := align_spec hb h
  exact (align_spec hb (by omega)).2.2 _ dvd_align (le_trans hle hc)

end MLton.SizeT
