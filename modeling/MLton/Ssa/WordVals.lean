import MLton.Atoms.WordBits
import MLton.Ssa.Semantics

/-!
# Ssa/WordVals — values that are words

A word of a size is the constant of its number.  A value that is one is read back as bits (`asWord`), and
what has another size, or is no word, is not.
-/

namespace MLton.Ssa

open MLton.Atoms.WordX

namespace Val

/-- A word. -/
def word (size : ℕ) (x : BitVec size) : Val := .const (.word size x.toNat)

/-- The bits of a word of the size. -/
def asWord (size : ℕ) : Val → Option (BitVec size)
  | .const (.word size' n) => if size' = size ∧ n < 2 ^ size then some (.ofNat size n) else none
  | _ => none

variable {size size' : ℕ} {x : BitVec size} {v : Val}

@[simp] theorem asWord_word : (word size x).asWord size = some x := by
  simp [word, asWord, x.isLt]

theorem asWord_eq_some : v.asWord size = some x ↔ v = word size x := by
  refine ⟨fun h => ?_, fun h => h ▸ asWord_word⟩
  unfold asWord at h
  split at h
  · next size' n =>
    obtain ⟨⟨rfl, hn⟩, h⟩ := Option.ite_none_right_eq_some.mp h
    obtain rfl := Option.some.inj h
    simp [word, Nat.mod_eq_of_lt hn]
  · cases h

/-- A word has one size. -/
theorem size_of_word {y : BitVec size'} (h : word size x = word size' y) : size = size' := by
  simp only [word, const.injEq, Const.word.injEq] at h
  exact h.1

theorem size_of_asWord {y : BitVec size'} (h : (word size x).asWord size' = some y) : size = size' :=
  size_of_word (asWord_eq_some.mp h)

theorem word_inj {y : BitVec size} (h : word size x = word size y) : x = y :=
  Option.some.inj (asWord_word.symm.trans (asWord_eq_some.mpr h))

end Val

end MLton.Ssa
