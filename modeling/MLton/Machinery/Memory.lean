import Mathlib.Tactic.Ring

/-!
# Machinery/Memory — bytes at addresses

A memory has a byte at every address.  A number is read from and written to a stretch of bytes, the least
significant byte first, and a stretch is copied to where it does not overlap itself.  What is written can
be read back, and nothing changes outside of the stretch that is written to.
-/

namespace MLton

/-- A byte at every address. -/
abbrev Memory := ℕ → UInt8

namespace Memory

/-- The number in the `n` bytes from an address. -/
def read (m : Memory) : ℕ → ℕ → ℕ
  | 0, _ => 0
  | n + 1, a => (m a).toNat + 256 * m.read n (a + 1)

/-- Put a number into the `n` bytes from an address. -/
def write (m : Memory) (n a v : ℕ) : Memory :=
  fun i => if a ≤ i ∧ i < a + n then UInt8.ofNat (v / 256 ^ (i - a)) else m i

/-- Copy the `n` bytes from `src` to `dst`. -/
def copy (m : Memory) (src dst n : ℕ) : Memory :=
  fun i => if dst ≤ i ∧ i < dst + n then m (src + (i - dst)) else m i

/-- The memories have the same bytes from `lo` up to `hi`. -/
def Agree (m m' : Memory) (lo hi : ℕ) : Prop := ∀ i, lo ≤ i → i < hi → m' i = m i

variable {m m' m'' : Memory} {n n' a b v lo hi lo' hi' src dst : ℕ}

namespace Agree

theorem refl : m.Agree m lo hi := fun _ _ _ => rfl

theorem trans (h : m.Agree m' lo hi) (h' : m'.Agree m'' lo hi) : m.Agree m'' lo hi :=
  fun i hlo hhi => (h' i hlo hhi).trans (h i hlo hhi)

theorem symm (h : m.Agree m' lo hi) : m'.Agree m lo hi := fun i hlo hhi => (h i hlo hhi).symm

theorem mono (h : m.Agree m' lo hi) (hlo : lo ≤ lo') (hhi : hi' ≤ hi) : m.Agree m' lo' hi' :=
  fun i hl hh => h i (hlo.trans hl) (hh.trans_le hhi)

/-- **The same bytes are the same number.** -/
theorem read_eq : ∀ {n a : ℕ}, m.Agree m' a (a + n) → m'.read n a = m.read n a
  | 0, _, _ => rfl
  | n + 1, a, h => by
      rw [read, read, h a le_rfl (by omega), read_eq (h.mono (Nat.le_succ a) (by omega))]

end Agree

theorem agree_write (h : hi ≤ a ∨ a + n ≤ lo) : m.Agree (m.write n a v) lo hi := by
  intro i hlo hhi
  exact if_neg (by omega)

/-- **What is written elsewhere does not matter.** -/
theorem read_write_of_disjoint (h : b + n ≤ a ∨ a + n' ≤ b) : (m.write n' a v).read n b = m.read n b :=
  (agree_write h).read_eq

/-- **The same number is the same bytes.** -/
theorem read_eq_read_iff : ∀ {n a b : ℕ}, m.read n a = m.read n b ↔ ∀ i < n, m (a + i) = m (b + i)
  | 0, _, _ => by simp [read]
  | n + 1, a, b => by
      have hrest := read_eq_read_iff (n := n) (a := a + 1) (b := b + 1)
      have ha := (m a).toNat_lt
      have hb := (m b).toNat_lt
      rw [read, read]
      constructor
      · intro h
        have hbyte : (m a).toNat = (m b).toNat := by omega
        have htail := hrest.mp (by omega)
        intro i hi
        cases i with
        | zero => exact UInt8.toNat_inj.mp hbyte
        | succ i =>
            have := htail i (by omega)
            rwa [Nat.add_right_comm, Nat.add_right_comm b] at this
      · intro h
        have htail : m.read n (a + 1) = m.read n (b + 1) := hrest.mpr fun i hi => by
          have := h (i + 1) (by omega)
          rwa [← Nat.add_assoc, ← Nat.add_assoc, Nat.add_right_comm, Nat.add_right_comm b] at this
        rw [htail, show m a = m b from h 0 (by omega)]

/-- The number in the bytes of a number, from the byte `k` on. -/
theorem read_bytes {f : Memory} : ∀ {n a v : ℕ}, (∀ i < n, f (a + i) = UInt8.ofNat (v / 256 ^ i)) →
    f.read n a = v % 256 ^ n
  | 0, _, _, _ => by simp [read, Nat.mod_one]
  | n + 1, a, v, h => by
      have hrest : f.read n (a + 1) = v / 256 % 256 ^ n := by
        refine read_bytes fun i hi => ?_
        rw [show a + 1 + i = a + (i + 1) by omega, h _ (by omega), Nat.pow_succ', Nat.div_div_eq_div_mul]
      have hbyte : (f a).toNat = v % 256 := by
        have := h 0 (by omega)
        simp only [Nat.add_zero, Nat.pow_zero, Nat.div_one] at this
        rw [this, UInt8.toNat_ofNat']
      rw [read, hrest, hbyte, Nat.pow_succ', Nat.mod_mul]

/-- **What is written can be read back.** -/
theorem read_write : (m.write n a v).read n a = v % 256 ^ n := by
  refine read_bytes fun i hi => ?_
  rw [write, if_pos ⟨Nat.le_add_right a i, by omega⟩, Nat.add_sub_cancel_left]

theorem read_write_of_lt (h : v < 256 ^ n) : (m.write n a v).read n a = v := by
  rw [read_write, Nat.mod_eq_of_lt h]

end Memory

end MLton
