import MLton.IntInf.Rep

/-!
# IntInf/Widths — object pointers and limbs of any two widths

The representation depends on two widths that are chosen apart: an object pointer and a limb are of 32 or
64 bits each, so that an object pointer may be as wide as two limbs.  What is a fixnum depends on the
first width alone (`words`), and what a vector of limbs stands for on the second alone (`limbs`).
-/

namespace MLton.IntInf

open BigInt

theorem align_allowed : (8 : ℕ) = 4 ∨ (8 : ℕ) = 8 := .inr rfl

theorem narrow_allowed : (32 : ℕ) = 32 ∨ (32 : ℕ) = 64 := .inl rfl

theorem wide_allowed : (64 : ℕ) = 32 ∨ (64 : ℕ) = 64 := .inr rfl

/-- The bits of an object pointer and of a limb. -/
structure Widths where
  objptr : ℕ
  limb : ℕ
  objptr_eq : objptr = 32 ∨ objptr = 64
  limb_eq : limb = 32 ∨ limb = 64

namespace Widths

variable (w : Widths)

/-- A target with these object pointers, for what does not depend on limbs. -/
def words : Target where
  objptr := w.objptr
  limb := 64
  align := 8
  header := w.objptr / 8
  metaData := 3 * (w.objptr / 8)
  objptr_eq := w.objptr_eq
  limb_eq := wide_allowed
  objptr_le := by have := w.objptr_eq; omega
  align_eq := align_allowed
  metaData_eq _ := rfl

/-- A target with these limbs, for what does not depend on object pointers. -/
def limbs : Target where
  objptr := 32
  limb := w.limb
  align := 8
  header := 4
  metaData := 12
  objptr_eq := narrow_allowed
  limb_eq := w.limb_eq
  objptr_le := by have := w.limb_eq; omega
  align_eq := align_allowed
  metaData_eq _ := rfl

/-- The target of these widths, if an object pointer is no wider than a limb. -/
def target (h : w.objptr ≤ w.limb) : Target where
  objptr := w.objptr
  limb := w.limb
  align := 8
  header := w.objptr / 8
  metaData := 3 * (w.objptr / 8)
  objptr_eq := w.objptr_eq
  limb_eq := w.limb_eq
  objptr_le := h
  align_eq := align_allowed
  metaData_eq _ := rfl

/-- Object pointers and limbs of 64 bits. -/
def wide : Widths := ⟨64, 64, wide_allowed, wide_allowed⟩

/-- Object pointers of 64 bits and limbs of 32. -/
def narrow : Widths := ⟨64, 32, wide_allowed, narrow_allowed⟩

variable {w}

theorem narrow_eq (h : w.limb < w.objptr) : w = narrow := by
  obtain ⟨objptr, limb, hobjptr, hlimb⟩ := w
  obtain rfl : objptr = 64 := by simp only at h; omega
  obtain rfl : limb = 32 := by simp only at h; omega
  rfl

/-! ## Canonical representations -/

variable (w)

/-- **Canonical form**: a tagged fixnum, or a sign limb and a magnitude without leading zero that no
fixnum has. -/
inductive Canonical : BigInt → Prop
  | small {i : ℤ} : w.words.IsFixnum i → Canonical (.word (2 * i + 1))
  | big {isneg : ℕ} {limbs : List ℕ} : isneg ≤ 1 → (∀ limb ∈ limbs, limb < w.limbs.base) →
      (∀ h : limbs ≠ [], limbs.getLast h ≠ 0) →
      ¬ w.words.IsFixnum (value w.limbs (.vector (isneg :: limbs))) → Canonical (.vector (isneg :: limbs))

/-- The canonical representation of an integer. -/
def ofInt (i : ℤ) : BigInt :=
  if w.words.IsFixnum i then .word (2 * i + 1)
  else .vector (signLimb i :: Nat.digits w.limbs.base i.natAbs)

variable {w}

theorem ofInt_fixnum {i : ℤ} (h : w.words.IsFixnum i) : w.ofInt i = .word (2 * i + 1) := if_pos h

theorem ofInt_big {i : ℤ} (h : ¬ w.words.IsFixnum i) :
    w.ofInt i = .vector (signLimb i :: Nat.digits w.limbs.base i.natAbs) := if_neg h

end Widths

end MLton.IntInf
