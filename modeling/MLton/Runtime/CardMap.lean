import Mathlib.Tactic.Ring

/-!
# Runtime/CardMap — where a card is marked

The heap is divided into cards of 256 bytes, and the card map behind the heap has one byte for each.
The map is addressed by the card of a pointer counted from address zero: `cardMapAbsolute` lies as many
bytes in front of the map as the heap has cards in front of it.  The subtraction may wrap around, and
then the addition wraps back (`pointerToCardMapAddr_eq`).
-/

namespace MLton.Runtime

/-- `CARD_SIZE_LOG2`, and `cardSizeLog2` in the compiler. -/
def cardSizeLog2 : ℕ := 8

/-- `CARD_SIZE`. -/
def cardSize : ℕ := 2 ^ cardSizeLog2

/-- What depends on the machine: the bits of a pointer, the bytes of an object pointer and of a page. -/
structure Target where
  width : ℕ
  objptrSize : ℕ
  pageSize : ℕ
  objptrSize_pos : 0 < objptrSize
  pageSize_pos : 0 < pageSize

/-- `struct GC_heap`; `nursery` is an address. -/
structure Heap where
  nursery : ℕ
  oldGenSize : ℕ
  size : ℕ
  start : ℕ

/-- `align`. -/
def align (a b : ℕ) : ℕ := a + (b - 1) - (a + (b - 1)) % b

theorem le_align {a b : ℕ} (hb : 0 < b) : a ≤ align a b := by
  have := Nat.mod_lt (a + (b - 1)) hb
  unfold align
  omega

/-- `sizeToCardMapIndex`. -/
def sizeToCardMapIndex (z : ℕ) : ℕ := z >>> cardSizeLog2

/-- `pointerToCardMapIndexAbsolute`. -/
def pointerToCardMapIndexAbsolute (p : ℕ) : ℕ := p >>> cardSizeLog2

namespace Heap

variable (T : Target) (h : Heap)

/-- The end of the heap: `limitPlusSlop`. -/
def limit : ℕ := h.start + h.size

/-- The end of the old generation. -/
def oldGenEnd : ℕ := h.start + h.oldGenSize

/-- `cardMap`: it starts at the end of the heap. -/
def cardMap : ℕ := h.start + h.size

/-- `cardMapLength`, as `sizeofCardMap` and `lenofCardMap` compute it. -/
def cardMapLength : ℕ := align (sizeToCardMapIndex h.size) T.pageSize

/-- `setCardMapAbsolute`.  The subtraction wraps around. -/
def cardMapAbsolute : ℕ :=
  (h.cardMap + 2 ^ T.width - pointerToCardMapIndexAbsolute h.start) % 2 ^ T.width

/-- `pointerToCardMapAddr`.  The addition wraps around. -/
def pointerToCardMapAddr (p : ℕ) : ℕ :=
  (h.cardMapAbsolute T + pointerToCardMapIndexAbsolute p) % 2 ^ T.width

/-- The byte that the statements of `updateCard` store one into: the pointer is shifted right, and
indexes what the runtime's field holds. -/
def updateCard (addr : ℕ) : ℕ := (h.cardMapAbsolute T + addr >>> cardSizeLog2 * 1 + 0) % 2 ^ T.width

/-- The address is an entry of the card map. -/
def InCardMap (a : ℕ) : Prop := h.cardMap ≤ a ∧ a < h.cardMap + h.cardMapLength T

/-- The pointer is into the heap. -/
def Contains (p : ℕ) : Prop := h.start ≤ p ∧ p < h.limit

instance (a : ℕ) : Decidable (h.InCardMap T a) := inferInstanceAs (Decidable (_ ∧ _))

instance (p : ℕ) : Decidable (h.Contains p) := inferInstanceAs (Decidable (_ ∧ _))

/-- The heap is made of cards, and it fits into memory with the map behind it. -/
structure WellFormed : Prop where
  start_aligned : cardSize ∣ h.start
  size_aligned : cardSize ∣ h.size
  maps : h.cardMap + h.cardMapLength T ≤ 2 ^ T.width

variable {T h}

/-- The compiler and the runtime mark the same byte. -/
theorem updateCard_eq (addr : ℕ) : h.updateCard T addr = h.pointerToCardMapAddr T addr := by
  simp [updateCard, pointerToCardMapAddr, pointerToCardMapIndexAbsolute]

/-- **The byte of a pointer into the heap**: the card of the pointer, counted from the start. -/
theorem pointerToCardMapAddr_eq (hwf : h.WellFormed T) {p : ℕ} (hp : h.Contains p) :
    h.pointerToCardMapAddr T p = h.cardMap + (p - h.start) / cardSize ∧
      (p - h.start) / cardSize < h.cardMapLength T := by
  obtain ⟨c, hc⟩ := hwf.start_aligned
  obtain ⟨n, hn⟩ := hwf.size_aligned
  have hmaps := hwf.maps
  obtain ⟨hle, hlt⟩ := hp
  have hlength : n ≤ h.cardMapLength T := by
    have hsize : sizeToCardMapIndex h.size = n := by
      rw [sizeToCardMapIndex, Nat.shiftRight_eq_div_pow, hn]
      exact Nat.mul_div_cancel_left n (Nat.two_pow_pos _)
    exact hsize ▸ le_align T.pageSize_pos
  have hcard : (p - h.start) / cardSize < n := by
    refine Nat.div_lt_of_lt_mul ?_
    unfold limit at hlt
    omega
  have hstart : pointerToCardMapIndexAbsolute h.start = c := by
    rw [pointerToCardMapIndexAbsolute, Nat.shiftRight_eq_div_pow, hc]
    exact Nat.mul_div_cancel_left c (Nat.two_pow_pos _)
  have hindex : pointerToCardMapIndexAbsolute p = c + (p - h.start) / cardSize := by
    have hp : p = cardSize * c + (p - h.start) := by omega
    rw [pointerToCardMapIndexAbsolute, Nat.shiftRight_eq_div_pow]
    conv_lhs => rw [hp]
    exact Nat.mul_add_div (Nat.two_pow_pos _) c _
  have hc_le : c ≤ h.start := by
    rw [hc]
    exact Nat.le_mul_of_pos_left c (Nat.two_pow_pos _)
  refine ⟨?_, hcard.trans_le hlength⟩
  rw [pointerToCardMapAddr, cardMapAbsolute, hstart, hindex, Nat.mod_add_mod]
  have hsum : h.cardMap + 2 ^ T.width - c + (c + (p - h.start) / cardSize)
      = h.cardMap + (p - h.start) / cardSize + 2 ^ T.width := by
    unfold cardMap
    omega
  rw [hsum, Nat.add_mod_right]
  exact Nat.mod_eq_of_lt (by omega)

/-- **A mark in the heap hits the card map.** -/
theorem inCardMap_of_contains (hwf : h.WellFormed T) {p : ℕ} (hp : h.Contains p) :
    h.InCardMap T (h.pointerToCardMapAddr T p) := by
  obtain ⟨heq, hlt⟩ := pointerToCardMapAddr_eq hwf hp
  rw [heq]
  exact ⟨Nat.le_add_right _ _, Nat.add_lt_add_left hlt _⟩

end Heap

end MLton.Runtime
