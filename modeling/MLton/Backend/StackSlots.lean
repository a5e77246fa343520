import Mathlib.Data.List.Sort
import Mathlib.Data.Nat.ModEq
import Mathlib.Tactic.Linarith

/-!
# Backend/StackSlots — the slots of a stack frame, first fit

The list is of what is allocated, in increasing order, neighbours merged.  `get` looks for the first gap in
which a slot fits at its alignment, starting from an empty slot in front of the list, and merges what it
allocates with its neighbours on both sides.

Every slot that was ever allocated lies within one of the list (`Within`), so being apart from the list is
being apart from all of them, and no history is needed.
-/

namespace MLton.Allocation

/-- `Bytes.align`. -/
def align (b alignment : ℕ) : ℕ :=
  let b := b + (alignment - 1)
  b - b % alignment

theorem align_dvd (b a : ℕ) : a ∣ align b a := Nat.dvd_sub_mod _

theorem le_align {b a : ℕ} (ha : 0 < a) : b ≤ align b a := by
  have := Nat.mod_lt (b + (a - 1)) ha
  rw [align]
  omega

/-- `Type.t`, as far as its slots go: `Type.bytes`, and the size of its C type. -/
structure Ty where
  bytes : ℕ
  alignment : ℕ
  alignment_pos : 0 < alignment

/-- `Type.align`. -/
def Ty.align (ty : Ty) (b : ℕ) : ℕ := Allocation.align b ty.alignment

/-- A slot. -/
structure Slot where
  offset : ℕ
  size : ℕ
deriving DecidableEq

namespace Slot

/-- Its end. -/
def stop (a : Slot) : ℕ := a.offset + a.size

/-- `a` ends before `b` starts. -/
def Before (a b : Slot) : Prop := a.stop ≤ b.offset

def Disjoint (a b : Slot) : Prop := a.Before b ∨ b.Before a

def Within (a b : Slot) : Prop := b.offset ≤ a.offset ∧ a.stop ≤ b.stop

instance : DecidableRel Before := fun a b => inferInstanceAs (Decidable (a.stop ≤ b.offset))

instance : DecidableRel Disjoint := fun a b => inferInstanceAs (Decidable (a.Before b ∨ b.Before a))

theorem offset_le_stop (a : Slot) : a.offset ≤ a.stop := Nat.le_add_right _ _

theorem Before.trans {a b c : Slot} (h : a.Before b) (h' : b.Before c) : a.Before c :=
  le_trans h (le_trans b.offset_le_stop h')

theorem Disjoint.of_within {a b c : Slot} : b.Disjoint a → c.Within b → c.Disjoint a
  | .inl h, hc => .inl (le_trans hc.2 h)
  | .inr h, hc => .inr (le_trans h hc.1)

theorem Within.refl (a : Slot) : a.Within a := ⟨le_rfl, le_rfl⟩

theorem Within.trans {a b c : Slot} (h : a.Within b) (h' : b.Within c) : a.Within c :=
  ⟨le_trans h'.1 h.1, le_trans h.2 h'.2⟩

end Slot

/-- **Sorted and disjoint**: each slot ends before the next one starts. -/
def Apart (alloc : List Slot) : Prop := alloc.Pairwise Slot.Before

/-- The byte is allocated. -/
def Covers (alloc : List Slot) (b : ℕ) : Prop := ∃ a ∈ alloc, a.offset ≤ b ∧ b < a.stop

theorem covers_append {l l' : List Slot} {b : ℕ} : Covers (l ++ l') b ↔ Covers l b ∨ Covers l' b := by
  simp only [Covers, List.mem_append, or_and_right, exists_or]

@[simp] theorem covers_cons {a : Slot} {l : List Slot} {b : ℕ} :
    Covers (a :: l) b ↔ a.offset ≤ b ∧ b < a.stop ∨ Covers l b := by
  simp only [Covers, List.mem_cons, or_and_right, exists_or, exists_eq_left]

@[simp] theorem covers_nil {b : ℕ} : ¬ Covers [] b := nofun

theorem Covers.perm {l l' : List Slot} {b : ℕ} (h : l.Perm l') : Covers l b ↔ Covers l' b := by
  simp only [Covers, h.mem_iff]

/-! ## A new stack -/

/-- `loop` of `Stack.new`. -/
def mergeSlots : List Slot → List Slot → Except String (List Slot)
  | [], ac => .ok ac.reverse
  | [a], ac => .ok (a :: ac).reverse
  | a₁ :: a₂ :: alloc, ac =>
    if a₁.stop = a₂.offset then mergeSlots (⟨a₁.offset, a₁.size + a₂.size⟩ :: alloc) ac
    else if a₂.offset < a₁.stop then .error "AllocateVariables.Stack.new"
    else mergeSlots (a₂ :: alloc) (a₁ :: ac)
termination_by alloc => alloc.length

/-- `Stack.new`; the sort is by offset. -/
def new (sortArray : List Slot → List Slot) (alloc : List Slot) : Except String (List Slot) :=
  mergeSlots (sortArray alloc) []

/-- What is asked of the sort; slots with the same offset may be in any order. -/
def Sorts (sortArray : List Slot → List Slot) : Prop :=
  ∀ l, (sortArray l).Perm l ∧ (sortArray l).Pairwise fun a b => a.offset ≤ b.offset

/-! ## A slot for a type -/

/-- `coalesce` of `Stack.get`: put the new slot behind `a`. -/
def coalesce (a : Slot) (start slotSize : ℕ) (ac : List Slot) : Slot × List Slot :=
  if a.stop = start then (⟨a.offset, a.size + slotSize⟩, ac) else (⟨start, slotSize⟩, a :: ac)

/-- `loop` of `Stack.get`.  Whether `a` is left out is asked of the slot behind it: the pattern has given
its names anew. -/
def getLoop (ty : Ty) : List Slot → Slot → List Slot → List Slot × ℕ
  | [], a, ac =>
    let start := ty.align a.stop
    let (a, ac) := coalesce a start ty.bytes ac
    ((a :: ac).reverse, start)
  | a' :: alloc, a, ac =>
    let start := ty.align a.stop
    if a'.offset < start + ty.bytes then
      getLoop ty alloc a' (if a'.offset = 0 ∧ a'.size = 0 then ac else a :: ac)
    else
      let (a'', ac) := coalesce a start ty.bytes ac
      (ac.reverse ++
        if a''.stop = a'.offset then ⟨a''.offset, a'.size + a''.size⟩ :: alloc
        else a'' :: a' :: alloc, start)

/-- `Stack.get`: the list, and the offset of the slot. -/
def get (alloc : List Slot) (ty : Ty) : List Slot × ℕ := getLoop ty alloc ⟨0, 0⟩ []

/-- **A sequence of requests**: the list that is left, and the slots in order. -/
def gets (alloc : List Slot) : List Ty → List Slot × List Slot
  | [] => (alloc, [])
  | ty :: tys =>
    let (alloc, offset) := get alloc ty
    let (alloc, slots) := gets alloc tys
    (alloc, ⟨offset, ty.bytes⟩ :: slots)

/-! ## What merging keeps -/

/-- **The lists hold the same**: the same bytes, and each slot of the one within a slot of the other. -/
structure Holds (alloc slots : List Slot) : Prop where
  covers : ∀ b, Covers alloc b ↔ Covers slots b
  within : ∀ a ∈ slots, ∃ a' ∈ alloc, a.Within a'

namespace Holds

variable {l l' l'' m : List Slot}

theorem refl (l : List Slot) : Holds l l := ⟨fun _ => Iff.rfl, fun a ha => ⟨a, ha, .refl a⟩⟩

theorem trans (h : Holds l l') (h' : Holds l' l'') : Holds l l'' where
  covers b := (h.covers b).trans (h'.covers b)
  within a ha := by
    obtain ⟨a', ha', hw⟩ := h'.within a ha
    obtain ⟨a'', ha'', hw'⟩ := h.within a' ha'
    exact ⟨a'', ha'', hw.trans hw'⟩

theorem of_perm (h : l.Perm l') : Holds l l' where
  covers _ := Covers.perm h
  within a ha := ⟨a, h.mem_iff.mpr ha, .refl a⟩

theorem append_left (h : Holds l l') : Holds (m ++ l) (m ++ l') where
  covers b := by rw [covers_append, covers_append, h.covers b]
  within a ha := by
    obtain ha | ha := List.mem_append.mp ha
    · exact ⟨a, List.mem_append_left _ ha, .refl a⟩
    · obtain ⟨a', ha', hw⟩ := h.within a ha
      exact ⟨a', List.mem_append_right _ ha', hw⟩

/-- **Neighbours may be merged.** -/
theorem merge {a a' : Slot} (h : a.stop = a'.offset) :
    Holds (⟨a.offset, a.size + a'.size⟩ :: l) (a :: a' :: l) where
  covers b := by
    simp only [covers_cons, Slot.stop] at h ⊢
    refine ⟨fun hb => ?_, fun hb => ?_⟩
    · obtain hb | hb := hb
      · by_cases hlt : b < a'.offset
        · exact .inl ⟨hb.1, h ▸ hlt⟩
        · exact .inr (.inl (by omega))
      · exact .inr (.inr hb)
    · obtain hb | hb | hb := hb
      · exact .inl (by omega)
      · exact .inl (by omega)
      · exact .inr hb
  within c hc := by
    simp only [List.mem_cons, Slot.Within, Slot.stop] at h hc ⊢
    obtain rfl | rfl | hc := hc
    · exact ⟨_, .inl rfl, le_rfl, by simp only; omega⟩
    · exact ⟨_, .inl rfl, by simp only; omega, by simp only; omega⟩
    · exact ⟨c, .inr hc, le_rfl, le_rfl⟩

/-- An empty slot holds nothing. -/
theorem of_cons_empty (h : Holds l (⟨0, 0⟩ :: l')) : Holds l l' where
  covers b := by simpa [Slot.stop] using h.covers b
  within a ha := h.within a (List.mem_cons_of_mem _ ha)

/-- What is apart from the one list is apart from the other. -/
theorem disjoint {c : Slot} (h : Holds l l') (hc : ∀ a ∈ l, a.Disjoint c) : ∀ a ∈ l', a.Disjoint c := by
  intro a ha
  obtain ⟨a', ha', hw⟩ := h.within a ha
  exact (hc a' ha').of_within hw

end Holds

namespace Apart

variable {l m : List Slot} {a a' : Slot}

theorem merge (h : Apart (l ++ a :: a' :: m)) (he : a.stop = a'.offset) :
    Apart (l ++ ⟨a.offset, a.size + a'.size⟩ :: m) := by
  have hstop : Slot.stop ⟨a.offset, a.size + a'.size⟩ = a'.stop := by
    simp only [Slot.stop] at he ⊢
    omega
  simp only [Apart, List.pairwise_append, List.pairwise_cons, List.mem_cons, forall_eq_or_imp] at h ⊢
  obtain ⟨hl, ⟨-, ha', hm⟩, hlm⟩ := h
  exact ⟨hl, ⟨fun b hb => hstop.trans_le (ha' b hb), hm⟩, fun b hb => ⟨(hlm b hb).1, (hlm b hb).2.2⟩⟩

/-- **A slot that fits into a gap.** -/
theorem insert {c : Slot} (h : Apart (l ++ a :: m)) (ha : a.Before c) (hm : ∀ b ∈ m, c.Before b) :
    Apart (l ++ a :: c :: m) := by
  simp only [Apart, List.pairwise_append, List.pairwise_cons, List.mem_cons, forall_eq_or_imp] at h ⊢
  obtain ⟨hl, ⟨ham, hmm⟩, hlm⟩ := h
  exact ⟨hl, ⟨⟨ha, ham⟩, hm, hmm⟩, fun b hb => ⟨(hlm b hb).1, (hlm b hb).1.trans ha, (hlm b hb).2⟩⟩

/-- The slots in front of the gap and those behind it. -/
theorem disjoint_of_insert {c : Slot} (h : Apart (l ++ a :: c :: m)) : ∀ b ∈ l ++ a :: m, b.Disjoint c := by
  simp only [Apart, List.pairwise_append, List.pairwise_cons, List.mem_cons, forall_eq_or_imp] at h
  obtain ⟨-, ⟨⟨hac, -⟩, hcm, -⟩, hlm⟩ := h
  intro b hb
  obtain hb | hb := List.mem_append.mp hb
  · exact .inl (hlm b hb).2.1
  · obtain rfl | hb := List.mem_cons.mp hb
    · exact .inl hac
    · exact .inr (hcm b hb)

end Apart

/-! ## Requests -/

/-- **What a request is to give**: a sorted list of disjoint slots that holds what was allocated and the
slot, at its alignment and apart from all that was allocated. -/
structure Got (ty : Ty) (alloc : List Slot) (r : List Slot × ℕ) : Prop where
  apart : Apart r.1
  holds : Holds r.1 (⟨r.2, ty.bytes⟩ :: alloc)
  disjoint : ∀ a ∈ alloc, a.Disjoint ⟨r.2, ty.bytes⟩
  aligned : ty.alignment ∣ r.2

/-- `coalesce` merges the new slot with its left neighbour. -/
theorem holds_coalesce (a : Slot) (start slotSize : ℕ) (ac rest : List Slot) :
    let r := coalesce a start slotSize ac
    Holds (r.2.reverse ++ r.1 :: rest) (ac.reverse ++ a :: ⟨start, slotSize⟩ :: rest) ∧
      (Apart (ac.reverse ++ a :: ⟨start, slotSize⟩ :: rest) → Apart (r.2.reverse ++ r.1 :: rest)) := by
  rw [coalesce]
  split
  case isTrue h =>
    have he : a.stop = (⟨start, slotSize⟩ : Slot).offset := h
    exact ⟨(Holds.merge he).append_left, fun hap => hap.merge he⟩
  case isFalse => simpa using Holds.refl _

/-- A slot that has been put behind `a` may be named first. -/
theorem holds_insert {l m : List Slot} {a c : Slot} :
    Holds (l ++ a :: c :: m) (c :: (l ++ a :: m)) :=
  .of_perm <| by
    have h : (l ++ [a] ++ c :: m).Perm (c :: (l ++ [a] ++ m)) := List.perm_middle
    simpa using h

/-- **The search gives what it is to give**, by induction on the slots that are left. -/
theorem got_getLoop (ty : Ty) : ∀ (alloc : List Slot) (a : Slot) (ac : List Slot),
    Apart (ac.reverse ++ a :: alloc) → Got ty (ac.reverse ++ a :: alloc) (getLoop ty alloc a ac)
  | [], a, ac, h => by
    have ha : a.Before ⟨ty.align a.stop, ty.bytes⟩ := le_align ty.alignment_pos
    have hins := h.insert ha (fun b hb => by simp at hb)
    obtain ⟨hco, hap⟩ := holds_coalesce a (ty.align a.stop) ty.bytes ac []
    refine ⟨?_, ?_, Apart.disjoint_of_insert hins, align_dvd _ _⟩
    · simpa [getLoop] using hap hins
    · simpa [getLoop] using hco.trans holds_insert
  | a' :: alloc, a, ac, h => by
    rw [getLoop]
    split
    case isTrue =>
      split
      case isTrue hz =>
        -- only an empty slot at the start can be in front of another one
        have hstop : a.stop = a'.offset := by
          have hb : a.Before a' := by
            simp only [Apart, List.pairwise_append, List.pairwise_cons, List.mem_cons, forall_eq_or_imp] at h
            exact h.2.1.1.1
          have hle : a.stop ≤ a'.offset := hb
          omega
        have ha : (⟨a.offset, a.size + a'.size⟩ : Slot) = a' := by
          obtain ⟨o, z⟩ := a'
          simp only [Slot.stop] at hstop hz ⊢
          simp only [Slot.mk.injEq]
          omega
        have hm := h.merge hstop
        have hhm := (Holds.merge (l := alloc) hstop).append_left (m := ac.reverse)
        rw [ha] at hm hhm
        have hg := got_getLoop ty alloc a' ac hm
        exact ⟨hg.apart, hg.holds.trans (Holds.append_left (m := [_]) hhm), hhm.disjoint hg.disjoint, hg.aligned⟩
      case isFalse => simpa using got_getLoop ty alloc a' (a :: ac) (by simpa using h)
    case isFalse hfit =>
      have ha : a.Before ⟨ty.align a.stop, ty.bytes⟩ := le_align ty.alignment_pos
      have hc : Slot.Before ⟨ty.align a.stop, ty.bytes⟩ a' := not_lt.mp hfit
      have hm : ∀ b ∈ a' :: alloc, Slot.Before ⟨ty.align a.stop, ty.bytes⟩ b := by
        intro b hb
        obtain rfl | hb := List.mem_cons.mp hb
        · exact hc
        · refine hc.trans ?_
          simp only [Apart, List.pairwise_append, List.pairwise_cons] at h
          exact h.2.1.2.1 b hb
      have hins := h.insert ha hm
      obtain ⟨hco, hap⟩ := holds_coalesce a (ty.align a.stop) ty.bytes ac (a' :: alloc)
      have hap := hap hins
      have hco := hco.trans holds_insert
      refine ⟨?_, ?_, Apart.disjoint_of_insert hins, align_dvd _ _⟩
      all_goals
        dsimp only
        split
      case refine_1.isTrue he => simpa [Nat.add_comm] using hap.merge he
      case refine_1.isFalse => exact hap
      case refine_2.isTrue he =>
        simpa [Nat.add_comm] using ((Holds.merge (l := alloc) he).append_left).trans hco
      case refine_2.isFalse => exact hco

/-- **One request.** -/
theorem got_get {alloc : List Slot} (ty : Ty) (h : Apart alloc) : Got ty alloc (get alloc ty) := by
  have hap : Apart (⟨0, 0⟩ :: alloc) := by
    refine List.pairwise_cons.mpr ⟨fun a _ => ?_, h⟩
    exact Nat.zero_le _
  have hg := got_getLoop ty alloc ⟨0, 0⟩ [] hap
  refine ⟨hg.apart, ?_, fun a ha => hg.disjoint a (List.mem_cons_of_mem _ ha), hg.aligned⟩
  exact (hg.holds.trans (.of_perm (List.Perm.swap ..))).of_cons_empty

/-- **What a sequence of requests is to give**: slots of their sizes and at their alignments, each apart
from all that was allocated before, and a sorted list of disjoint slots that holds exactly all of them. -/
structure Served (slots : List Slot) (tys : List Ty) (r : List Slot × List Slot) : Prop where
  apart : Apart r.1
  holds : Holds r.1 (slots ++ r.2)
  fits : List.Forall₂ (fun ty a => a.size = ty.bytes ∧ ty.alignment ∣ a.offset) tys r.2
  fresh : ∀ c ∈ r.2, ∀ a ∈ slots, a.Disjoint c
  disjoint : r.2.Pairwise Slot.Disjoint

theorem served_gets : ∀ (tys : List Ty) {alloc slots : List Slot}, Apart alloc → Holds alloc slots →
    Served slots tys (gets alloc tys)
  | [], alloc, slots, h, hh => ⟨h, by simpa [gets] using hh, .nil, nofun, .nil⟩
  | ty :: tys, alloc, slots, h, hh => by
    have hg := got_get ty h
    set a : Slot := ⟨(get alloc ty).2, ty.bytes⟩ with hadef
    have hslots : Holds (get alloc ty).1 (slots ++ [a]) :=
      (hg.holds.trans (Holds.append_left (m := [a]) hh)).trans (.of_perm List.perm_append_comm)
    have hs := served_gets tys hg.apart hslots
    have ha : ∀ c ∈ slots, c.Disjoint a := hh.disjoint hg.disjoint
    refine ⟨hs.apart, ?_, .cons ⟨rfl, hg.aligned⟩ hs.fits, ?_, ?_⟩
    · simpa [gets] using hs.holds
    · intro c hc b hb
      obtain rfl | hc := List.mem_cons.mp hc
      · exact ha b hb
      · exact hs.fresh c hc b (List.mem_append_left _ hb)
    · exact List.pairwise_cons.mpr
        ⟨fun c hc => hs.fresh c hc a (List.mem_append_right _ (List.mem_singleton_self a)), hs.disjoint⟩

/-! ## The list that `Stack.new` makes -/

/-- Slots that are apart are merged. -/
theorem mergeSlots_of_apart : ∀ (alloc ac : List Slot), Apart (ac.reverse ++ alloc) →
    ∃ l, mergeSlots alloc ac = .ok l ∧ Apart l ∧ Holds l (ac.reverse ++ alloc)
  | [], ac, h => ⟨_, by rw [mergeSlots], by simpa using h, by simpa using Holds.refl _⟩
  | [a], ac, h => ⟨_, by rw [mergeSlots], by simpa using h, by simpa using Holds.refl _⟩
  | a₁ :: a₂ :: alloc, ac, h => by
    rw [mergeSlots]
    split
    case isTrue he =>
      obtain ⟨l, hl, hap, hh⟩ := mergeSlots_of_apart _ ac (h.merge he)
      exact ⟨l, hl, hap, hh.trans (Holds.merge he).append_left⟩
    case isFalse =>
      have hle : ¬ a₂.offset < a₁.stop := by
        simp only [Apart, List.pairwise_append, List.pairwise_cons, List.mem_cons, forall_eq_or_imp] at h
        exact not_lt.mpr h.2.1.1.1
      obtain ⟨l, hl, hap, hh⟩ := mergeSlots_of_apart (a₂ :: alloc) (a₁ :: ac) (by simpa using h)
      exact ⟨l, by rw [if_neg hle, hl], hap, by simpa using hh⟩
termination_by alloc => alloc.length

/-- **Slots that are not apart are a bug.** -/
theorem mergeSlots_of_not_apart : ∀ (alloc ac : List Slot), ¬ Apart alloc →
    mergeSlots alloc ac = .error "AllocateVariables.Stack.new"
  | [], _, h => absurd .nil h
  | [a], _, h => absurd (List.pairwise_singleton ..) h
  | a₁ :: a₂ :: alloc, ac, h => by
    have key (hle : a₁.stop ≤ a₂.offset) (h₂ : Apart (a₂ :: alloc)) : Apart (a₁ :: a₂ :: alloc) := by
      refine List.pairwise_cons.mpr ⟨fun c hc => ?_, h₂⟩
      obtain rfl | hc := List.mem_cons.mp hc
      · exact hle
      · exact Slot.Before.trans hle ((List.pairwise_cons.mp h₂).1 c hc)
    rw [mergeSlots]
    split
    case isTrue he =>
      refine mergeSlots_of_not_apart _ ac fun hap => h ?_
      have hstop : Slot.stop ⟨a₁.offset, a₁.size + a₂.size⟩ = a₂.stop := by
        simp only [Slot.stop] at he ⊢
        omega
      obtain ⟨hbefore, hrest⟩ := List.pairwise_cons.mp hap
      exact key he.le (List.pairwise_cons.mpr ⟨fun c hc => hstop.symm.trans_le (hbefore c hc), hrest⟩)
    case isFalse =>
      split
      case isTrue => rfl
      case isFalse hle =>
        refine mergeSlots_of_not_apart _ _ fun hap => h ?_
        exact key (not_lt.mp hle) hap
termination_by alloc => alloc.length

/-- **Slots that share no byte are apart once they are sorted**, none of them being empty. -/
theorem apart_sort_iff {sortArray : List Slot → List Slot} (hsort : Sorts sortArray) {slots : List Slot}
    (hpos : ∀ a ∈ slots, 0 < a.size) : Apart (sortArray slots) ↔ slots.Pairwise Slot.Disjoint := by
  obtain ⟨hperm, hle⟩ := hsort slots
  rw [← hperm.pairwise_iff fun {_ _} h => h.symm]
  refine ⟨fun h => h.imp Or.inl, fun h => (h.and hle).imp_of_mem fun {a b} _ hb hab => ?_⟩
  obtain ⟨hba | hba, hle⟩ := hab
  · exact hba
  · have := hpos b (hperm.mem_iff.mp hb)
    have hba : b.offset + b.size ≤ a.offset := hba
    omega

/-- What is apart once it is sorted shares no byte. -/
theorem disjoint_of_apart_sort {sortArray : List Slot → List Slot} (hsort : Sorts sortArray)
    {slots : List Slot} (h : Apart (sortArray slots)) : slots.Pairwise Slot.Disjoint := by
  rw [← (hsort slots).1.pairwise_iff fun {_ _} h => h.symm]
  exact h.imp Or.inl

/-- **The slots of a frame.**  Slots that are given and share a byte are reported as a bug.  Otherwise
`Stack.new` makes the list of what they allocate, sorted and disjoint, and every sequence of requests is
served from it. -/
theorem stack_served (sortArray : List Slot → List Slot) (hsort : Sorts sortArray) (slots : List Slot) :
    ((∀ a ∈ slots, 0 < a.size) → ¬ slots.Pairwise Slot.Disjoint →
      new sortArray slots = .error "AllocateVariables.Stack.new") ∧
    ((∀ a ∈ slots, 0 < a.size) → slots.Pairwise Slot.Disjoint → ∃ alloc, new sortArray slots = .ok alloc) ∧
    ∀ alloc, new sortArray slots = .ok alloc → slots.Pairwise Slot.Disjoint ∧ Apart alloc ∧
      Holds alloc slots ∧ ∀ tys, Served slots tys (gets alloc tys) := by
  refine ⟨fun hpos hdis => ?_, fun hpos hdis => ?_, fun alloc hnew => ?_⟩
  · exact mergeSlots_of_not_apart _ _ (mt (apart_sort_iff hsort hpos).mp hdis)
  · obtain ⟨l, hl, -⟩ := mergeSlots_of_apart (sortArray slots) [] ((apart_sort_iff hsort hpos).mpr hdis)
    exact ⟨l, hl⟩
  · by_cases hap : Apart (sortArray slots)
    · obtain ⟨l, hl, hapl, hh⟩ := mergeSlots_of_apart (sortArray slots) [] hap
      obtain rfl : l = alloc := Except.ok.inj (hl.symm.trans hnew)
      have hslots : Holds l slots := hh.trans (.of_perm (hsort slots).1)
      exact ⟨disjoint_of_apart_sort hsort hap, hapl, hslots, fun tys => served_gets tys hapl hslots⟩
    · exact nomatch (mergeSlots_of_not_apart _ _ hap).symm.trans hnew

/-- A sort by offset. -/
def sortByOffset : List Slot → List Slot := List.insertionSort fun a b => a.offset ≤ b.offset

theorem sorts_sortByOffset : Sorts sortByOffset := fun l =>
  haveI : Std.Total fun a b : Slot => a.offset ≤ b.offset := ⟨fun a b => le_total a.offset b.offset⟩
  haveI : IsTrans Slot fun a b => a.offset ≤ b.offset := ⟨fun _ _ _ => le_trans⟩
  ⟨List.perm_insertionSort _ l, List.pairwise_insertionSort _ l⟩

theorem stack_served_two : new sortByOffset [⟨8, 8⟩, ⟨0, 4⟩] = .ok [⟨0, 4⟩, ⟨8, 8⟩] ∧
    ∀ tys, Served [⟨8, 8⟩, ⟨0, 4⟩] tys (gets [⟨0, 4⟩, ⟨8, 8⟩] tys) :=
  have h : new sortByOffset [⟨8, 8⟩, ⟨0, 4⟩] = .ok [⟨0, 4⟩, ⟨8, 8⟩] := by
    simp [new, sortByOffset, mergeSlots, Slot.stop]
  ⟨h, ((stack_served sortByOffset sorts_sortByOffset [⟨8, 8⟩, ⟨0, 4⟩]).2.2 _ h).2.2.2⟩

/-- **The list is of what is allocated, and there is not always one.** -/
theorem new_not_free : (∀ alloc, new sortByOffset [⟨0, 8⟩, ⟨4, 8⟩] ≠ .ok alloc) ∧
    new sortByOffset [⟨0, 8⟩] = .ok [⟨0, 8⟩] ∧ ¬ Slot.Disjoint ⟨0, 8⟩ ⟨0, 8⟩ := by
  refine ⟨?_, ?_, by decide⟩
  · simp [new, sortByOffset, mergeSlots, Slot.stop]
  · simp [new, sortByOffset, mergeSlots]

end MLton.Allocation
