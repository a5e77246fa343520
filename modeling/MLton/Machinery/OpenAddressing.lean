import Mathlib.Data.List.ReduceOption
import Mathlib.Data.ZMod.Defs

/-!
# Machinery/OpenAddressing — a table that is probed until what is sought is found

A table of `n` slots is looked at from the slot `s` on, in steps of `d` around the end of the table.  If
`d` and `n` have no common divisor then the first `n` slots looked at are all there are, so the search
comes to a free slot if there is one.  An element is **placed** if the slots in front of it on its own way
are taken: a search for it cannot end before it is found, and this stays so when free slots are filled.
-/

namespace MLton.Probe

variable {α : Type*} {n s d i j : ℕ}

/-- The slot that is looked at after `i` others. -/
def slot (n s d i : ℕ) : ℕ := (s + i * d) % n

theorem slot_zero (h : s < n) : slot n s d 0 = s := by
  rw [slot, Nat.zero_mul, Nat.add_zero, Nat.mod_eq_of_lt h]

theorem slot_lt (hn : 0 < n) : slot n s d i < n := Nat.mod_lt _ hn

/-- The next slot. -/
theorem slot_succ : slot n s d (i + 1) = (slot n s d i + d) % n := by
  rw [slot, slot, Nat.mod_add_mod, Nat.succ_mul, Nat.add_assoc]

/-- **No slot is looked at twice.** -/
theorem slot_inj (h : n.Coprime d) (hi : i < n) (hj : j < n) (hslot : slot n s d i = slot n s d j) :
    i = j := by
  have hmul : i * d ≡ j * d [MOD n] := Nat.ModEq.add_left_cancel' s hslot
  exact (Nat.ModEq.cancel_right_of_coprime h hmul).eq_of_lt_of_lt hi hj

/-- **Every slot is looked at.** -/
theorem exists_slot_eq (h : n.Coprime d) {k : ℕ} (hk : k < n) : ∃ i < n, slot n s d i = k := by
  let f : Fin n → Fin n := fun i => ⟨slot n s d i, slot_lt (i.pos)⟩
  have hinj : Function.Injective f := fun i j hij =>
    Fin.ext (slot_inj h i.isLt j.isLt (congrArg Fin.val hij))
  obtain ⟨i, hi⟩ := Finite.surjective_of_injective hinj ⟨k, hk⟩
  exact ⟨i, i.isLt, congrArg Fin.val hi⟩

/-! ## The slots that are passed -/

/-- The search goes past `i` slots: they hold elements, all of them such. -/
def Passes (table : List (Option α)) (s d : ℕ) (other : α → Prop) (i : ℕ) : Prop :=
  ∀ j < i, ∃ a, table[slot table.length s d j]? = some (some a) ∧ other a

variable {table : List (Option α)} {other : α → Prop} {a b : α}

theorem Passes.zero : Passes table s d other 0 := fun _ h => absurd h (Nat.not_lt_zero _)

theorem Passes.mono {other' : α → Prop} (h : Passes table s d other i) (himp : ∀ a, other a → other' a)
    (hj : j ≤ i) : Passes table s d other' j := fun k hk =>
  have ⟨a, ha, ho⟩ := h k (hk.trans_le hj)
  ⟨a, ha, himp a ho⟩

/-- **The search ends**, at a free slot or at an element that it does not go past. -/
theorem exists_stop (s : ℕ) (other : α → Prop) (hcop : table.length.Coprime d) (hfree : none ∈ table) :
    ∃ i < table.length, Passes table s d other i ∧
      (table[slot table.length s d i]? = some none ∨
        ∃ a, table[slot table.length s d i]? = some (some a) ∧ ¬ other a) := by
  classical
  obtain ⟨k, hk, hnone⟩ := List.mem_iff_getElem.mp hfree
  obtain ⟨i₀, hi₀, hslot⟩ := exists_slot_eq (s := s) hcop hk
  let stops : ℕ → Prop := fun i =>
    table[slot table.length s d i]? = some none ∨
      ∃ a, table[slot table.length s d i]? = some (some a) ∧ ¬ other a
  have hex : ∃ i, stops i := ⟨i₀, .inl (by rw [hslot, List.getElem?_eq_getElem hk, hnone])⟩
  refine ⟨Nat.find hex, (Nat.find_min' hex ?_).trans_lt hi₀, fun j hj => ?_, Nat.find_spec hex⟩
  · exact .inl (by rw [hslot, List.getElem?_eq_getElem hk, hnone])
  · have hlt : slot table.length s d j < table.length := slot_lt (by omega)
    have hgo : ¬ stops j := Nat.find_min hex hj
    cases hcell : table[slot table.length s d j] with
    | none => exact absurd (.inl (by rw [List.getElem?_eq_getElem hlt, hcell])) hgo
    | some a =>
        have ha : table[slot table.length s d j]? = some (some a) := by
          rw [List.getElem?_eq_getElem hlt, hcell]
        exact ⟨a, ha, Classical.byContradiction fun ho => hgo (.inr ⟨a, ha, ho⟩)⟩

/-! ## Elements on their way -/

/-- The element is where a search for it gets to: the slots in front of it are taken. -/
def Placed (table : List (Option α)) (s d : ℕ) (a : α) : Prop :=
  ∃ i < table.length, table[slot table.length s d i]? = some (some a) ∧
    Passes table s d (fun _ => True) i

variable {k : ℕ}

/-- Filling a free slot leaves those that are taken. -/
theorem getElem?_set_of_taken (hfree : table[k]? = some none) (ha : table[j]? = some (some a)) :
    (table.set k (some b))[j]? = some (some a) := by
  have hne : k ≠ j := by
    rintro rfl
    rw [hfree] at ha
    simp at ha
  rw [List.getElem?_set_ne hne, ha]

theorem Passes.set (h : Passes table s d other i) (hfree : table[k]? = some none) :
    Passes (table.set k (some b)) s d other i := by
  intro j hj
  obtain ⟨a, ha, ho⟩ := h j hj
  refine ⟨a, ?_, ho⟩
  rw [List.length_set]
  exact getElem?_set_of_taken hfree ha

/-- **An element that is placed stays placed.** -/
theorem Placed.set (h : Placed table s d a) (hfree : table[k]? = some none) :
    Placed (table.set k (some b)) s d a := by
  obtain ⟨i, hi, ha, hpass⟩ := h
  refine ⟨i, by rwa [List.length_set], ?_, hpass.set hfree⟩
  rw [List.length_set]
  exact getElem?_set_of_taken hfree ha

/-- **What is put into the free slot that its search gets to is placed.** -/
theorem placed_set (hi : i < table.length) (hpass : Passes table s d other i)
    (hfree : table[slot table.length s d i]? = some none) :
    Placed (table.set (slot table.length s d i) (some a)) s d a := by
  refine ⟨i, by rwa [List.length_set], ?_, (hpass.mono (fun _ _ => trivial) le_rfl).set hfree⟩
  rw [List.length_set, List.getElem?_set_self (List.getElem?_eq_some_iff.mp hfree).1]

/-! ## What a table holds -/

/-- **Filling a free slot adds one element.** -/
theorem reduceOption_set : ∀ {table : List (Option α)} {k : ℕ}, table[k]? = some none →
    (table.set k (some a)).reduceOption.Perm (a :: table.reduceOption)
  | [], _, h => by simp at h
  | c :: table, 0, h => by
      obtain rfl : c = none := by simpa using h
      rw [List.set_cons_zero, List.reduceOption_cons_of_some, List.reduceOption_cons_of_none]
  | none :: table, k + 1, h => by
      rw [List.set_cons_succ, List.reduceOption_cons_of_none, List.reduceOption_cons_of_none]
      exact reduceOption_set (by simpa using h)
  | some b :: table, k + 1, h => by
      rw [List.set_cons_succ, List.reduceOption_cons_of_some, List.reduceOption_cons_of_some]
      exact ((reduceOption_set (by simpa using h)).cons b).trans (.swap a b _)

end MLton.Probe
