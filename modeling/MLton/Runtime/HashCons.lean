import MLton.Machinery.OpenAddressing
import MLton.Runtime.ObjectLayout
import Mathlib.Data.Nat.Prime.Basic

/-!
# Runtime/HashCons — sharing equal objects

`hashConsPointer` computes a hash from the header of an object and its words and looks for an equal object
in `objectHashTable`, an open table of `2 ^ p` slots.  The high bits of the low 32 bits of a multiple of
the hash say where to look first, and the odd number at or below it how far away to look next.  When more
than half of the slots are in use, `growHashTableMaybe` moves the entries into a table of twice the size.

The memory is the one at the time of a call, which does not write to it.  Every comparison records the
object of the entry and where the words that were read of it end.
-/

namespace MLton.Runtime

namespace Layout

variable (L : Layout)

/-- `sizeofSequenceNoMetaData`. -/
def sizeofSequenceNoMetaData (numElements : ℕ) (ty : ObjectType) : ℕ :=
  L.alignWithExtra (numElements * L.bytesOf ty) L.sequenceMetaDataSize

/-- `sizeofStackNoMetaData`. -/
def sizeofStackNoMetaData (m : Memory) (stack : ℕ) : ℕ := L.sizeofStack + L.getStackReserved m stack

/-- `sizeofObjectNoMetaData`; there may be no such type. -/
def sizeofObjectNoMetaData (m : Memory) (p : ℕ) : Option ℕ := do
  let ty ← L.splitHeader (L.getHeader m p)
  match ty.tag with
  | .normal | .weak => some (L.bytesOf ty)
  | .sequence => some (L.sizeofSequenceNoMetaData (L.getSequenceLength m p) ty)
  | .stack => some (L.sizeofStackNoMetaData m p)

end Layout

namespace HashCons

/-- `GC_HASH_SIZE`, which is also the size of the `unsigned int` that objects are compared by. -/
def hashSize : ℕ := 4

/-- A `uint32_t`. -/
def wrap (n : ℕ) : ℕ := n % 2 ^ 32

/-- `struct GC_objectHashElement`, of a slot in use. -/
structure Element where
  hash : ℕ
  object : ℕ
deriving DecidableEq

/-- `struct GC_objectHashTable`. -/
structure Table where
  elements : List (Option Element)
  elementsLengthCur : ℕ
  elementsLengthMax : ℕ
  elementsLengthMaxLog2 : ℕ
  mayInsert : Bool

/-- The table that `allocHashTable` returns, with `2 ^ p` slots. -/
def Table.alloc (p : ℕ) : Table :=
  { elements := List.replicate (2 ^ p) none, elementsLengthCur := 0, elementsLengthMax := 2 ^ p,
    elementsLengthMaxLog2 := p, mayInsert := true }

/-- What the code must not do. -/
inductive Fault where
  | noType
  | outside
  | endless
deriving DecidableEq

/-- What `insertHashTableElem` and `hashConsPointer` leave: the table, the object that is returned, and
the objects that were compared with where their words were read up to. -/
structure Outcome where
  table : Table
  res : ℕ
  reads : List (ℕ × ℕ)

variable (L : Layout) (mult : ℕ) (m : Memory)

/-! ## Objects -/

/-- The number of words that start in front of an end. -/
def wordsIn (p max : ℕ) : ℕ := (max - p + (hashSize - 1)) / hashSize

/-- The loop of `hashConsPointer` over the words of the object. -/
def hashWords : ℕ → ℕ → ℕ → ℕ
  | 0, _, hash => hash
  | n + 1, p, hash => hashWords n (p + hashSize) (wrap (hash * 31 + m.read hashSize p))

/-- The loop of `insertHashTableElem` over the words of two objects.  With the outcome is the end of
what was read of the second. -/
def compareWords : ℕ → ℕ → ℕ → Bool × ℕ
  | 0, _, p2 => (true, p2)
  | n + 1, p1, p2 =>
    if m.read hashSize p1 = m.read hashSize p2 then compareWords n (p1 + hashSize) (p2 + hashSize)
    else (false, p2 + hashSize)

/-- Compare `object` to the object of an entry. -/
def compareObjects (object max other : ℕ) : Bool × List (ℕ × ℕ) :=
  if object = other then (true, [])
  else
    let header := L.getHeader m object
    if header = L.getHeader m other then
      let (same, stop) := compareWords m (wordsIn object max) object other
      if same then
        let differ := (L.splitHeader header).map (·.tag) = some .sequence ∧
          L.getSequenceLength m object ≠ L.getSequenceLength m other
        (!decide differ, [(other, stop)])
      else (false, [(other, stop)])
    else (false, [])

/-! ## The table -/

/-- The slot to look at first. -/
def firstSlot (t : Table) (hash : ℕ) : ℕ := wrap (mult * hash) >>> (32 - t.elementsLengthMaxLog2)

/-- The distance to the next slot. -/
def probe (slot : ℕ) : ℕ := if slot % 2 = 1 then slot else wrap (slot + (2 ^ 32 - 1))

/-- The next slot. -/
def nextSlot (t : Table) (probe slot : ℕ) : ℕ := wrap (slot + probe) % t.elementsLengthMax

/-- Put an entry into a slot. -/
def Table.insert (t : Table) (slot : ℕ) (e : Element) : Table :=
  { t with elements := t.elements.set slot (some e), elementsLengthCur := wrap (t.elementsLengthCur + 1) }

/-- From the label `look` of `insertHashTableElem` on, with at most so many slots to look at. -/
def look (t : Table) (hash object max : ℕ) (mightBeThere : Bool) (probe : ℕ) :
    ℕ → ℕ → List (ℕ × ℕ) → Except Fault Outcome
  | 0, _, _ => .error .endless
  | n + 1, slot, reads =>
    match t.elements[slot]? with
    | none => .error .outside
    | some none =>
      if t.mayInsert then .ok ⟨t.insert slot ⟨hash, object⟩, object, reads⟩
      else .ok ⟨t, object, reads⟩
    | some (some e) =>
      if hash = e.hash ∧ mightBeThere = true then
        match compareObjects L m object max e.object with
        | (true, read) => .ok ⟨t, e.object, reads ++ read⟩
        | (false, read) =>
          look t hash object max mightBeThere probe n (nextSlot t probe slot) (reads ++ read)
      else look t hash object max mightBeThere probe n (nextSlot t probe slot) reads

/-- `insertHashTableElem`. -/
def insertHashTableElem (t : Table) (hash object max : ℕ) (mightBeThere : Bool) : Except Fault Outcome :=
  let slot := firstSlot mult t hash
  look L m t hash object max mightBeThere (probe slot) (t.elementsLengthMax + 1) slot []

/-- `growHashTableMaybe`.  Whether there is space for the new table is given. -/
def growHashTableMaybe (space : Bool) (t : Table) : Except Fault Table :=
  if t.mayInsert = false ∨ wrap (t.elementsLengthCur * 2) ≤ t.elementsLengthMax then .ok t
  else if space then
    let newElementsLengthMax := wrap (t.elementsLengthMax * 2)
    let new := { t with
      elements := List.replicate newElementsLengthMax none
      elementsLengthMax := newElementsLengthMax
      elementsLengthMaxLog2 := t.elementsLengthMaxLog2 + 1 }
    t.elements.reduceOption.foldlM (fun t e => do
      let out ← insertHashTableElem L mult m t e.hash e.object 0 false
      pure out.table) new
  else .ok { t with mayInsert := false }

/-- `hashConsPointer`, without the count of bytes. -/
def hashConsPointer (space : Bool) (t : Table) (object : ℕ) : Except Fault Outcome := do
  let header := L.getHeader m object
  match L.splitHeader header with
  | none => .error .noType
  | some ty =>
    if ty.hasIdentity then pure ⟨t, object, []⟩
    else
      let max := object + if ty.tag = .sequence then
        L.sizeofSequenceNoMetaData (L.getSequenceLength m object) ty else L.bytesOf ty
      let hash := hashWords m (wordsIn object max) object (wrap header)
      let out ← insertHashTableElem L mult m t hash object max true
      let t ← growHashTableMaybe L mult m space out.table
      pure ⟨t, out.res, out.reads⟩

end HashCons

end MLton.Runtime

/-!
## Comparing objects and finding a slot

Two objects are the same if they have the same header, the same length and the same bytes, and this is what
`compareObjects` finds out: its words are whole, since the sizes of objects are multiples of the size of a
word.  The distance between the slots that are looked at is odd and their number a power of two, so that
`insertHashTableElem` ends while there is a free slot, and the wrap-around of the slot numbers is harmless.
-/

namespace MLton.Runtime.HashCons

variable {L : Layout} {mult : ℕ} {m : Memory} {t : Table}

/-! ## Words -/

section Words

variable {n k p q : ℕ}

theorem compareWords_fst : ∀ {n p q : ℕ},
    (compareWords m n p q).1 = true ↔ ∀ i < n * hashSize, m (p + i) = m (q + i)
  | 0, _, _ => by simp [compareWords]
  | n + 1, p, q => by
      rw [compareWords]
      split
      next heq =>
        rw [compareWords_fst]
        rw [Memory.read_eq_read_iff] at heq
        constructor
        · intro h i hi
          rcases Nat.lt_or_ge i hashSize with hlt | hge
          · exact heq i hlt
          · have := h (i - hashSize) (by simp only [hashSize] at *; omega)
            rwa [Nat.add_assoc, Nat.add_assoc, Nat.add_sub_cancel' hge] at this
        · intro h i hi
          have := h (hashSize + i) (by simp only [hashSize] at *; omega)
          rwa [← Nat.add_assoc, ← Nat.add_assoc] at this
      next hne =>
        refine iff_of_false Bool.false_ne_true fun h => hne ?_
        exact Memory.read_eq_read_iff.mpr fun i hi => h i (by simp only [hashSize] at *; omega)

theorem le_compareWords_snd : ∀ {n p q : ℕ}, q ≤ (compareWords m n p q).2
  | 0, _, _ => le_rfl
  | n + 1, p, q => by
      rw [compareWords]
      split
      · exact (Nat.le_add_right q hashSize).trans le_compareWords_snd
      · exact Nat.le_add_right q hashSize

/-- **The words of the second object that are read**: those up to an end, unless the objects agree there
and the first goes on. -/
theorem compareWords_snd_le_iff : ∀ {n k p q : ℕ},
    (compareWords m n p q).2 ≤ q + k * hashSize ↔ n ≤ k ∨ ¬ ∀ i < k * hashSize, m (p + i) = m (q + i)
  | 0, _, _, _ => by simp [compareWords]
  | n + 1, 0, p, q => by
      have hlt : q < (compareWords m (n + 1) p q).2 := by
        rw [compareWords]
        split
        · exact (Nat.lt_add_of_pos_right (by decide)).trans_le le_compareWords_snd
        · exact Nat.lt_add_of_pos_right (by decide)
      simp only [Nat.zero_mul, Nat.add_zero, Nat.not_lt_zero, false_implies, implies_true, not_true,
        or_false]
      omega
  | n + 1, k + 1, p, q => by
      rw [compareWords]
      split
      next heq =>
        have ih := compareWords_snd_le_iff (n := n) (k := k) (p := p + hashSize) (q := q + hashSize)
        rw [← compareWords_fst] at ih ⊢
        rw [compareWords, if_pos heq, Nat.add_le_add_iff_right, ← ih, Nat.succ_mul,
          Nat.add_comm (k * hashSize), Nat.add_assoc]
      next hne =>
        refine iff_of_true ?_ (.inr fun h => hne ?_)
        · simp only [Nat.succ_mul]
          omega
        · exact Memory.read_eq_read_iff.mpr fun i hi => h i (by simp only [hashSize] at *; omega)

theorem wordsIn_add (k p : ℕ) : wordsIn p (p + k * hashSize) = k := by
  simp only [wordsIn, hashSize]
  omega

end Words

/-! ## Objects -/

/-- What the compiler gives the runtime: with its header, an object that is not a sequence or a stack
ends at a multiple of the alignment. -/
def Padded (L : Layout) : Prop :=
  ∀ ty ∈ L.objectTypes, ty.tag = .normal ∨ ty.tag = .weak →
    L.alignment ∣ L.bytesOf ty + L.normalMetaDataSize

/-- An object of a type with bytes to compare. -/
def Sharable (L : Layout) (m : Memory) (p : ℕ) : Prop :=
  ∃ ty, L.splitHeader (L.getHeader m p) = some ty ∧ ty.tag ≠ .stack

/-- **The objects are equal.** -/
structure Same (L : Layout) (m : Memory) (object other : ℕ) : Prop where
  header : L.getHeader m other = L.getHeader m object
  length : ∀ ty, L.splitHeader (L.getHeader m object) = some ty → ty.tag = .sequence →
    L.getSequenceLength m other = L.getSequenceLength m object
  contents : ∀ n, L.sizeofObjectNoMetaData m object = some n → ∀ i < n, m (other + i) = m (object + i)

theorem Same.refl (object : ℕ) : Same L m object object :=
  ⟨rfl, fun _ _ _ => rfl, fun _ _ _ _ => rfl⟩

/-- The other object has the same header, takes fewer bytes, and none of them is different. -/
def ExtendedBy (L : Layout) (m : Memory) (object other : ℕ) : Prop :=
  other ≠ object ∧ L.getHeader m other = L.getHeader m object ∧
    ∃ n n', L.sizeofObjectNoMetaData m object = some n ∧ L.sizeofObjectNoMetaData m other = some n' ∧
      n' < n ∧ ∀ i < n', m (other + i) = m (object + i)

/-- The bytes of a sequence are whole words. -/
theorem hashSize_dvd_sizeofSequence (n : ℕ) (ty : ObjectType) :
    hashSize ∣ L.sizeofSequenceNoMetaData n ty := by
  have hle := le_align (a := n * L.bytesOf ty + L.sequenceMetaDataSize) L.alignment_pos
  obtain ⟨k, hk⟩ : L.alignment ∣ align (n * L.bytesOf ty + L.sequenceMetaDataSize) L.alignment :=
    Nat.dvd_sub_mod _
  simp only [Layout.sizeofSequenceNoMetaData, Layout.alignWithExtra, Layout.sequenceMetaDataSize,
    hashSize] at *
  rw [hk]
  rcases L.align48 with ha | ha <;> rcases L.native with hw | hw <;> rw [ha, hw] <;> omega

/-- **The bytes of an object are whole words.** -/
theorem hashSize_dvd_size (hL : Padded L) {p n : ℕ} (hp : Sharable L m p)
    (hn : L.sizeofObjectNoMetaData m p = some n) : hashSize ∣ n := by
  obtain ⟨ty, hty, htag⟩ := hp
  have hmem : ty ∈ L.objectTypes := List.mem_of_getElem? hty
  simp only [Layout.sizeofObjectNoMetaData, hty, Option.bind_eq_bind, Option.bind_some] at hn
  have hpad : ty.tag = .normal ∨ ty.tag = .weak → hashSize ∣ L.bytesOf ty := by
    intro h
    obtain ⟨k, hk⟩ := hL ty hmem h
    simp only [Layout.normalMetaDataSize, hashSize] at *
    rcases L.align48 with ha | ha <;> rcases L.native with hw | hw <;> rw [ha, hw] at hk <;> omega
  cases htg : ty.tag with
  | normal =>
      simp only [htg, Option.some.injEq] at hn
      exact hn ▸ hpad (.inl htg)
  | weak =>
      simp only [htg, Option.some.injEq] at hn
      exact hn ▸ hpad (.inr htg)
  | sequence =>
      simp only [htg, Option.some.injEq] at hn
      exact hn ▸ hashSize_dvd_sizeofSequence _ ty
  | stack => exact absurd htg htag

theorem exists_size {p : ℕ} (hp : Sharable L m p) : ∃ n, L.sizeofObjectNoMetaData m p = some n := by
  obtain ⟨ty, hty, -⟩ := hp
  simp only [Layout.sizeofObjectNoMetaData, hty, Option.bind_eq_bind, Option.bind_some]
  cases ty.tag <;> exact ⟨_, rfl⟩

/-- Words that were read of an object, up to an end, are words of the object. -/
def Within (L : Layout) (m : Memory) (read : ℕ × ℕ) : Prop :=
  ∃ n, L.sizeofObjectNoMetaData m read.1 = some n ∧ read.2 ≤ read.1 + n

/-- The comparison of two objects at different places. -/
theorem compareObjects_of_ne {object max other : ℕ} (hne : object ≠ other) :
    compareObjects L m object max other =
      if L.getHeader m object = L.getHeader m other then
        ((compareWords m (wordsIn object max) object other).1 &&
          !decide ((L.splitHeader (L.getHeader m object)).map (·.tag) = some .sequence ∧
            L.getSequenceLength m object ≠ L.getSequenceLength m other),
          [(other, (compareWords m (wordsIn object max) object other).2)])
      else (false, []) := by
  rw [compareObjects, if_neg hne]
  rcases compareWords m (wordsIn object max) object other with ⟨_ | _, stop⟩ <;> rfl

section Compare

variable (hL : Padded L) {object other n : ℕ} (hobject : Sharable L m object)
  (hn : L.sizeofObjectNoMetaData m object = some n)

include hL hobject hn

/-- **What a comparison finds out.** -/
theorem compareObjects_fst :
    (compareObjects L m object (object + n) other).1 = true ↔ Same L m object other := by
  obtain ⟨k, rfl⟩ := hashSize_dvd_size hL hobject hn
  by_cases hne : object = other
  · subst hne
    rw [compareObjects, if_pos rfl]
    exact iff_of_true rfl (Same.refl object)
  rw [compareObjects_of_ne hne]
  by_cases hheader : L.getHeader m object = L.getHeader m other
  · have hwords := compareWords_fst (m := m) (n := k) (p := object) (q := other)
    rw [Nat.mul_comm] at hn ⊢
    rw [if_pos hheader, wordsIn_add, Bool.and_eq_true, hwords, Bool.not_eq_true',
      decide_eq_false_iff_not, not_and, not_not]
    constructor
    · rintro ⟨hbytes, hlength⟩
      refine ⟨hheader.symm, fun ty hty htag => (hlength ?_).symm, fun n' hn' i hi => ?_⟩
      · rw [hty, Option.map_some, htag]
      · rw [hn, Option.some.injEq] at hn'
        exact (hbytes i (hn' ▸ hi)).symm
    · intro h
      refine ⟨fun i hi => (h.contents _ hn i hi).symm, fun htag => ?_⟩
      obtain ⟨ty, hty, hseq⟩ := Option.map_eq_some_iff.mp htag
      exact (h.length ty hty hseq).symm
  · rw [if_neg hheader]
    exact iff_of_false Bool.false_ne_true fun h => hheader h.header.symm

/-- **A comparison reads what is not of the other object exactly if that object is extended.** -/
theorem within_compareObjects :
    (∀ read ∈ (compareObjects L m object (object + n) other).2, Within L m read) ↔
      ¬ ExtendedBy L m object other := by
  by_cases hne : object = other
  · rw [compareObjects, if_pos hne]
    exact iff_of_true (fun _ h => absurd h List.not_mem_nil) fun h => h.1 hne.symm
  rw [compareObjects_of_ne hne]
  by_cases hheader : L.getHeader m object = L.getHeader m other
  · obtain ⟨ty, hty, htag⟩ := hobject
    have hother : Sharable L m other := ⟨ty, hheader ▸ hty, htag⟩
    obtain ⟨n', hn'⟩ := exists_size hother
    obtain ⟨k, rfl⟩ := hashSize_dvd_size hL ⟨ty, hty, htag⟩ hn
    obtain ⟨k', rfl⟩ := hashSize_dvd_size hL hother hn'
    have hextended : ExtendedBy L m object other ↔
        k' < k ∧ ∀ i < k' * hashSize, m (object + i) = m (other + i) := by
      constructor
      · rintro ⟨-, -, a, b, ha, hb, hlt, hbytes⟩
        obtain rfl := Option.some.inj (hn.symm.trans ha)
        obtain rfl := Option.some.inj (hn'.symm.trans hb)
        exact ⟨Nat.lt_of_mul_lt_mul_left hlt, fun i hi => (hbytes i (Nat.mul_comm _ _ ▸ hi)).symm⟩
      · rintro ⟨hlt, hbytes⟩
        exact ⟨Ne.symm hne, hheader.symm, _, _, hn, hn', Nat.mul_lt_mul_of_pos_left hlt (by decide),
          fun i hi => (hbytes i (Nat.mul_comm _ _ ▸ hi)).symm⟩
    rw [if_pos hheader, List.forall_mem_singleton, Within, hn', hextended, not_and_or, Nat.not_lt]
    simp only [Option.some.injEq, exists_eq_left']
    rw [Nat.mul_comm, wordsIn_add, Nat.mul_comm, compareWords_snd_le_iff]
  · rw [if_neg hheader]
    exact iff_of_true (fun _ h => absurd h List.not_mem_nil) fun h => hheader h.2.1.symm

end Compare

/-! ## Slots -/

/-- **A table that can be searched**: there are `2 ^ p` slots, and not all of them are in use. -/
structure Searchable (t : Table) : Prop where
  length : t.elements.length = t.elementsLengthMax
  power : t.elementsLengthMax = 2 ^ t.elementsLengthMaxLog2
  log2_le : t.elementsLengthMaxLog2 ≤ 31
  free : none ∈ t.elements

theorem firstSlot_lt (ht : Searchable t) (hash : ℕ) : firstSlot mult t hash < t.elementsLengthMax := by
  have hlog := ht.log2_le
  rw [ht.power, firstSlot, Nat.shiftRight_eq_div_pow]
  refine Nat.div_lt_of_lt_mul ?_
  rw [← Nat.pow_add, Nat.sub_add_cancel (by omega)]
  exact Nat.mod_lt _ (by decide)

/-- **The distance between slots is odd.** -/
theorem odd_probe {slot : ℕ} : probe slot % 2 = 1 := by
  unfold probe
  split
  · assumption
  · rw [wrap, Nat.mod_mod_of_dvd _ (by decide)]
    omega

theorem coprime_probe (ht : Searchable t) {slot : ℕ} : t.elements.length.Coprime (probe slot) := by
  rw [ht.length, ht.power]
  exact Nat.Coprime.pow_left _ (Nat.odd_iff.mpr odd_probe).coprime_two_left

/-- **The wrap-around of the slot number does not matter.** -/
theorem nextSlot_slot (ht : Searchable t) {s d i : ℕ} :
    nextSlot t d (Probe.slot t.elements.length s d i) = Probe.slot t.elements.length s d (i + 1) := by
  have hdvd : t.elementsLengthMax ∣ 2 ^ 32 := by
    rw [ht.power]
    exact Nat.pow_dvd_pow 2 (ht.log2_le.trans (by decide))
  rw [nextSlot, wrap, Nat.mod_mod_of_dvd _ hdvd, ← ht.length, Probe.slot_succ]

/-- The slot that is looked at after `i` others. -/
def slotAt (mult : ℕ) (t : Table) (hash i : ℕ) : ℕ :=
  Probe.slot t.elements.length (firstSlot mult t hash) (probe (firstSlot mult t hash)) i

/-- The search goes past `i` slots. -/
def Passes (mult : ℕ) (t : Table) (hash : ℕ) (other : Element → Prop) (i : ℕ) : Prop :=
  Probe.Passes t.elements (firstSlot mult t hash) (probe (firstSlot mult t hash)) other i

/-! ## Insertion -/

section Insert

variable (L mult m t) (hash object max : ℕ) (mightBeThere : Bool)

/-- The entry is not that of an equal object. -/
def Differs (e : Element) : Prop :=
  ¬ (hash = e.hash ∧ mightBeThere = true ∧ (compareObjects L m object max e.object).1 = true)

/-- What is read at a slot. -/
def readsAt (slot : ℕ) : List (ℕ × ℕ) :=
  match t.elements[slot]? with
  | some (some e) =>
    if hash = e.hash ∧ mightBeThere = true then (compareObjects L m object max e.object).2 else []
  | _ => []

/-- What is read at the first slots. -/
def readsUpTo (i : ℕ) : List (ℕ × ℕ) :=
  (List.range i).flatMap fun j => readsAt L m t hash object max mightBeThere (slotAt mult t hash j)

/-- **How `insertHashTableElem` ends**: at an entry of an equal object, or at a free slot, which it fills
if it may. -/
inductive Ends : Outcome → Prop
  | found (i : ℕ) (e : Element) (hpass : Passes mult t hash (Differs L m hash object max mightBeThere) i)
      (he : t.elements[slotAt mult t hash i]? = some (some e))
      (hsame : ¬ Differs L m hash object max mightBeThere e) :
      Ends ⟨t, e.object, readsUpTo L mult m t hash object max mightBeThere (i + 1)⟩
  | insert (i : ℕ) (hpass : Passes mult t hash (Differs L m hash object max mightBeThere) i)
      (hi : i < t.elements.length) (hfree : t.elements[slotAt mult t hash i]? = some none)
      (hmay : t.mayInsert = true) :
      Ends ⟨t.insert (slotAt mult t hash i) ⟨hash, object⟩, object,
        readsUpTo L mult m t hash object max mightBeThere i⟩
  | full (i : ℕ) (hpass : Passes mult t hash (Differs L m hash object max mightBeThere) i)
      (hfree : t.elements[slotAt mult t hash i]? = some none) (hmay : t.mayInsert = false) :
      Ends ⟨t, object, readsUpTo L mult m t hash object max mightBeThere i⟩

variable {L mult m t hash object max mightBeThere}

theorem readsUpTo_succ {i : ℕ} :
    readsUpTo L mult m t hash object max mightBeThere (i + 1) =
      readsUpTo L mult m t hash object max mightBeThere i ++
        readsAt L m t hash object max mightBeThere (slotAt mult t hash i) := by
  rw [readsUpTo, readsUpTo, List.range_succ, List.flatMap_append, List.flatMap_singleton]

/-- Going past an entry. -/
theorem look_succ {probe s n : ℕ} {e : Element} {reads : List (ℕ × ℕ)}
    (he : t.elements[s]? = some (some e)) (hother : Differs L m hash object max mightBeThere e) :
    look L m t hash object max mightBeThere probe (n + 1) s reads =
      look L m t hash object max mightBeThere probe n (nextSlot t probe s)
        (reads ++ readsAt L m t hash object max mightBeThere s) := by
  rw [look, he, readsAt, he]
  dsimp only
  split
  next h =>
    have hfst : (compareObjects L m object max e.object).1 = false := by
      simpa using fun hsame => hother ⟨h.1, h.2, hsame⟩
    generalize compareObjects L m object max e.object = c at hfst ⊢
    obtain ⟨same, read⟩ := c
    obtain rfl : same = false := hfst
    rfl
  next => rw [List.append_nil]

/-- Stopping at an entry. -/
theorem look_of_same {probe s n : ℕ} {e : Element} {reads : List (ℕ × ℕ)}
    (he : t.elements[s]? = some (some e)) (hsame : ¬ Differs L m hash object max mightBeThere e) :
    look L m t hash object max mightBeThere probe (n + 1) s reads =
      .ok ⟨t, e.object, reads ++ readsAt L m t hash object max mightBeThere s⟩ := by
  obtain ⟨hhash, hthere, hfst⟩ := not_not.mp hsame
  rw [look, he, readsAt, he]
  dsimp only
  rw [if_pos ⟨hhash, hthere⟩, if_pos ⟨hhash, hthere⟩]
  generalize compareObjects L m object max e.object = c at hfst ⊢
  obtain ⟨same, read⟩ := c
  obtain rfl : same = true := hfst
  rfl

/-- Going past entries. -/
theorem look_add (ht : Searchable t) : ∀ {k n : ℕ},
    Passes mult t hash (Differs L m hash object max mightBeThere) k →
    look L m t hash object max mightBeThere (probe (firstSlot mult t hash)) (k + n)
        (firstSlot mult t hash) [] =
      look L m t hash object max mightBeThere (probe (firstSlot mult t hash)) n (slotAt mult t hash k)
        (readsUpTo L mult m t hash object max mightBeThere k)
  | 0, n, _ => by
      rw [slotAt, Probe.slot_zero (ht.length ▸ firstSlot_lt ht hash), Nat.zero_add]
      rfl
  | k + 1, n, h => by
      obtain ⟨e, he, hother⟩ := h k (Nat.lt_succ_self k)
      rw [Nat.add_right_comm, Nat.add_assoc, look_add ht (h.mono (fun _ h => h) (Nat.le_succ k)),
        look_succ (s := slotAt mult t hash k) he hother, readsUpTo_succ, slotAt,
        nextSlot_slot ht]
      rfl

variable (L mult m hash object max mightBeThere) in
/-- **`insertHashTableElem` ends**, for every hash, if a slot is free. -/
theorem exists_ends (ht : Searchable t) :
    ∃ out, insertHashTableElem L mult m t hash object max mightBeThere = .ok out ∧
      Ends L mult m t hash object max mightBeThere out := by
  obtain ⟨i, hi, hpass, hstop⟩ := Probe.exists_stop (firstSlot mult t hash)
    (Differs L m hash object max mightBeThere) (coprime_probe ht) ht.free
  have hfuel : t.elementsLengthMax + 1 = i + (t.elements.length - i - 1 + 1 + 1) := by
    rw [← ht.length]
    omega
  rw [insertHashTableElem, hfuel, look_add ht hpass]
  rcases hstop with hfree | ⟨e, he, hsame⟩
  · rw [look, show t.elements[slotAt mult t hash i]? = some none from hfree]
    dsimp only
    split
    next hmay => exact ⟨_, rfl, .insert i hpass hi hfree hmay⟩
    next hmay => exact ⟨_, rfl, .full i hpass hfree (by simpa using hmay)⟩
  · rw [look_of_same (s := slotAt mult t hash i) he hsame]
    exact ⟨_, by rw [← readsUpTo_succ], .found i e hpass he hsame⟩

end Insert

end MLton.Runtime.HashCons
