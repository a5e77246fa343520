import MLton.Runtime.HashCons

/-!
# Runtime/HashConsCorrect — only equal objects are shared

The table keeps every entry where a search for it gets to, and never fills up: each entry is counted at
least once, and the table grows when the count exceeds half of its slots.  It does so until there are
`2 ^ 31` slots, whose double is no number of slots any more.  The words of the objects are compared before
their lengths are, so that the words behind a shorter sequence are read if all of its own agree.
-/

namespace MLton.Runtime.HashCons

variable {L : Layout} {mult : ℕ} {m : Memory} {t : Table} {hash object max n : ℕ}

/-! ## Entries -/

/-- The entries of a table. -/
def Table.entries (t : Table) : List Element := t.elements.reduceOption

/-- **Every entry is found**: the search for its hash gets to it. -/
def Findable (mult : ℕ) (t : Table) : Prop :=
  ∀ e ∈ t.entries, Probe.Placed t.elements (firstSlot mult t e.hash) (probe (firstSlot mult t e.hash)) e

theorem entries_insert {slot : ℕ} {e : Element} (hfree : t.elements[slot]? = some none) :
    (t.insert slot e).entries.Perm (e :: t.entries) := Probe.reduceOption_set hfree

/-- **Filling the free slot that the search gets to keeps every entry.** -/
theorem findable_insert {i : ℕ} {other : Element → Prop} (hfind : Findable mult t)
    (hpass : Passes mult t hash other i) (hi : i < t.elements.length)
    (hfree : t.elements[slotAt mult t hash i]? = some none) :
    Findable mult (t.insert (slotAt mult t hash i) ⟨hash, object⟩) := by
  intro e he
  rcases List.mem_cons.mp ((entries_insert hfree).mem_iff.mp he) with rfl | he
  · exact Probe.placed_set hi hpass hfree
  · exact (hfind e he).set hfree

theorem Searchable.insert {slot : ℕ} {e : Element} (ht : Searchable t)
    (hfree : t.elements[slot]? = some none) (hlt : t.entries.length + 1 < t.elements.length) :
    Searchable (t.insert slot e) := by
  refine ⟨(List.length_set ..).trans ht.length, ht.power, ht.log2_le, ?_⟩
  refine List.reduceOption_length_lt_iff.mp ?_
  have hlen : (t.insert slot e).entries.length = t.entries.length + 1 := (entries_insert hfree).length_eq
  rw [Table.entries] at hlen
  rw [hlen]
  exact hlt.trans_eq (List.length_set ..).symm

/-! ## Growing -/

variable (L m hash object max) in
/-- What putting back one of the old entries does. -/
theorem exists_insert (ht : Searchable t) (hmay : t.mayInsert = true) :
    ∃ i < t.elements.length, t.elements[slotAt mult t hash i]? = some none ∧
      Passes mult t hash (fun _ => True) i ∧ ∃ reads,
      insertHashTableElem L mult m t hash object max false =
        .ok ⟨t.insert (slotAt mult t hash i) ⟨hash, object⟩, object, reads⟩ := by
  obtain ⟨out, hout, hends⟩ :=
    exists_ends L mult m hash object max false ht
  cases hends with
  | found i e _ _ hsame => exact absurd (fun h => Bool.false_ne_true h.2.1) hsame
  | insert i hpass hi hfree => exact ⟨i, hi, hfree, hpass.mono (fun _ _ => trivial) le_rfl, _, hout⟩
  | full i _ _ hno => exact absurd (hmay.symm.trans hno) Bool.true_eq_false_eq_False

/-- The loop of `growHashTableMaybe` over the entries. -/
def reinsert (L : Layout) (mult : ℕ) (m : Memory) (es : List Element) (t : Table) : Except Fault Table :=
  es.foldlM (fun t e => do
    let out ← insertHashTableElem L mult m t e.hash e.object 0 false
    pure out.table) t

/-- **The entries that are put back are all there**, and counted once more. -/
theorem exists_reinsert : ∀ (es : List Element) {t : Table}, Searchable t → Findable mult t →
    t.mayInsert = true → es.length + t.entries.length < t.elements.length →
    t.elementsLengthCur + es.length < 2 ^ 32 →
    ∃ t', reinsert L mult m es t = .ok t' ∧ Searchable t' ∧ Findable mult t' ∧
      t'.entries.Perm (es ++ t.entries) ∧ t'.mayInsert = true ∧
      t'.elementsLengthMax = t.elementsLengthMax ∧ t'.elementsLengthMaxLog2 = t.elementsLengthMaxLog2 ∧
      t'.elementsLengthCur = t.elementsLengthCur + es.length
  | [], t, ht, hfind, hmay, _, _ => ⟨t, rfl, ht, hfind, .refl _, hmay, rfl, rfl, rfl⟩
  | e :: es, t, ht, hfind, hmay, hlt, hcur => by
      rw [List.length_cons] at hlt hcur
      obtain ⟨i, hi, hfree, hpass, reads, hout⟩ :=
        exists_insert L m e.hash e.object 0 ht hmay
      have hperm := entries_insert (e := ⟨e.hash, e.object⟩) hfree
      have hlen : (t.insert (slotAt mult t e.hash i) e).elements.length = t.elements.length :=
        List.length_set ..
      have hcount : (t.insert (slotAt mult t e.hash i) e).elementsLengthCur = t.elementsLengthCur + 1 :=
        Nat.mod_eq_of_lt (by omega)
      obtain ⟨t', hrun, ht', hfind', hperm', hmay', hmax', hlog', hcur'⟩ :=
        exists_reinsert es (ht.insert (e := ⟨e.hash, e.object⟩) hfree (by omega))
          (findable_insert hfind hpass hi hfree) hmay
          (by rw [hperm.length_eq, hlen, List.length_cons]; omega) (by rw [hcount]; omega)
      refine ⟨t', ?_, ht', hfind', ?_, hmay', hmax', hlog', ?_⟩
      · rw [reinsert, List.foldlM_cons, hout]
        exact hrun
      · exact hperm'.trans ((hperm.append_left es).trans List.perm_middle)
      · rw [hcur', hcount, List.length_cons]
        omega

/-- **The table between two calls.**  Each entry is counted at least once, and what was counted twice when
the table grew leaves half of the table to new entries. -/
structure WellFormed (mult : ℕ) (t : Table) : Prop where
  length : t.elements.length = t.elementsLengthMax
  power : t.elementsLengthMax = 2 ^ t.elementsLengthMaxLog2
  log2_le : t.elementsLengthMaxLog2 ≤ 31
  le_log2 : 6 ≤ t.elementsLengthMaxLog2
  findable : Findable mult t
  entries_le : t.entries.length ≤ t.elementsLengthCur
  cur_le : t.elementsLengthCur + t.entries.length ≤ t.elementsLengthMax + 2
  insertable : t.mayInsert = true → t.elementsLengthCur * 2 ≤ t.elementsLengthMax + 4 ∧
    t.elementsLengthCur + t.entries.length ≤ t.elementsLengthMax

namespace WellFormed

variable (ht : WellFormed mult t)

include ht

theorem le_max : 64 ≤ t.elementsLengthMax :=
  (Nat.pow_le_pow_right (n := 2) (by decide) ht.le_log2).trans_eq ht.power.symm

theorem max_le : t.elementsLengthMax ≤ 2 ^ 31 :=
  ht.power ▸ Nat.pow_le_pow_right (by decide) ht.log2_le

/-- **The table is never full.** -/
theorem entries_lt : t.entries.length + 1 < t.elements.length := by
  have := ht.le_max
  have := ht.entries_le
  have := ht.cur_le
  rw [ht.length]
  omega

theorem searchable : Searchable t :=
  ⟨ht.length, ht.power, ht.log2_le,
    List.reduceOption_length_lt_iff.mp ((Nat.lt_succ_self _).trans ht.entries_lt)⟩

end WellFormed

theorem wellFormed_alloc {p : ℕ} (hp : 6 ≤ p) (hp' : p ≤ 31) : WellFormed mult (Table.alloc p) := by
  have hnil : (Table.alloc p).entries = [] := List.reduceOption_replicate_none
  refine ⟨List.length_replicate, rfl, hp', hp, fun e he => ?_, ?_, ?_, fun _ => ⟨?_, ?_⟩⟩
  · exact absurd he (by simp [hnil])
  · exact (congrArg List.length hnil).le
  · rw [hnil]
    exact Nat.zero_le _
  · exact (Nat.zero_mul 2).le.trans (Nat.zero_le _)
  · rw [hnil]
    exact Nat.zero_le _

/-- The table has to grow. -/
def Grows (t : Table) : Prop := t.mayInsert = true ∧ t.elementsLengthMax < t.elementsLengthCur * 2

theorem not_grows_iff : ¬ Grows t ↔
    t.mayInsert = false ∨ t.elementsLengthCur * 2 ≤ t.elementsLengthMax := by
  rw [Grows, not_and_or, Nat.not_lt, Bool.not_eq_true]

/-- The larger table, before the entries are put into it. -/
def larger (t : Table) : Table :=
  { t with
    elements := List.replicate (wrap (t.elementsLengthMax * 2)) none
    elementsLengthMax := wrap (t.elementsLengthMax * 2)
    elementsLengthMaxLog2 := t.elementsLengthMaxLog2 + 1 }

/-- **The table while an entry may have been added.** -/
structure Inserted (mult : ℕ) (t : Table) : Prop where
  searchable : Searchable t
  le_log2 : 6 ≤ t.elementsLengthMaxLog2
  findable : Findable mult t
  entries_le : t.entries.length ≤ t.elementsLengthCur
  cur_le : t.elementsLengthCur + t.entries.length ≤ t.elementsLengthMax + 2
  insertable : t.mayInsert = true → t.elementsLengthCur * 2 ≤ t.elementsLengthMax + 6

namespace Inserted

variable (ht : Inserted mult t)

include ht

theorem le_max : 64 ≤ t.elementsLengthMax :=
  (Nat.pow_le_pow_right (n := 2) (by decide) ht.le_log2).trans_eq ht.searchable.power.symm

theorem max_le : t.elementsLengthMax ≤ 2 ^ 31 :=
  ht.searchable.power ▸ Nat.pow_le_pow_right (by decide) ht.searchable.log2_le

/-- The number of entries does not wrap around. -/
theorem stays_iff : (t.mayInsert = false ∨ wrap (t.elementsLengthCur * 2) ≤ t.elementsLengthMax) ↔
    ¬ Grows t := by
  have := ht.max_le
  rw [not_grows_iff]
  cases hmay : t.mayInsert with
  | false => simp
  | true =>
      have := ht.insertable hmay
      rw [wrap, Nat.mod_eq_of_lt (by omega)]

/-- **The table stays as it is.** -/
theorem grow_of_not_grows (space : Bool) (hno : ¬ Grows t) :
    growHashTableMaybe L mult m space t = .ok t ∧ WellFormed mult t := by
  refine ⟨if_pos (ht.stays_iff.mpr hno), ?_⟩
  refine ⟨ht.searchable.length, ht.searchable.power, ht.searchable.log2_le, ht.le_log2, ht.findable,
    ht.entries_le, ht.cur_le, fun hmay => ?_⟩
  have hle := (not_grows_iff.mp hno).resolve_left (by simp [hmay])
  have := ht.entries_le
  omega

/-- **There is no space for a larger table**, and nothing is inserted any more. -/
theorem grow_of_no_space (hgrows : Grows t) :
    growHashTableMaybe L mult m false t = .ok { t with mayInsert := false } ∧
      WellFormed mult { t with mayInsert := false } := by
  refine ⟨?_, ?_⟩
  · rw [growHashTableMaybe, if_neg (mt ht.stays_iff.mp (not_not.mpr hgrows)), if_neg Bool.false_ne_true]
  · exact ⟨ht.searchable.length, ht.searchable.power, ht.searchable.log2_le, ht.le_log2, ht.findable,
      ht.entries_le, ht.cur_le, fun h => absurd h Bool.false_ne_true⟩

theorem grow_of_space (hgrows : Grows t) :
    growHashTableMaybe L mult m true t = reinsert L mult m t.entries (larger t) := by
  rw [growHashTableMaybe, if_neg (mt ht.stays_iff.mp (not_not.mpr hgrows)), if_pos rfl]
  rfl

/-- **A table of twice the size keeps every entry**, while there is such a size. -/
theorem exists_grow (hgrows : Grows t) (hsize : t.elementsLengthMax < 2 ^ 31) :
    ∃ t', growHashTableMaybe L mult m true t = .ok t' ∧ WellFormed mult t' ∧
      t'.entries.Perm t.entries := by
  have hpower := ht.searchable.power
  have hmax : wrap (t.elementsLengthMax * 2) = t.elementsLengthMax * 2 := Nat.mod_eq_of_lt (by omega)
  have hlog : t.elementsLengthMaxLog2 + 1 ≤ 31 := by
    rw [hpower, Nat.pow_lt_pow_iff_right (by decide)] at hsize
    exact hsize
  have hnil : (larger t).entries = [] := List.reduceOption_replicate_none
  have hbig := ht.le_max
  have hle := ht.entries_le
  have hcur := ht.cur_le
  have hlen : (larger t).elements.length = t.elementsLengthMax * 2 := List.length_replicate.trans hmax
  have hsearch : Searchable (larger t) := by
    refine ⟨List.length_replicate, ?_, hlog, ?_⟩
    · exact hmax.trans (hpower ▸ (Nat.pow_succ ..).symm)
    · refine List.mem_replicate.mpr ⟨?_, rfl⟩
      rw [hmax]
      omega
  obtain ⟨t', hrun, ht', hfind', hperm, hmay', hmax', hlog', hcur'⟩ :=
    exists_reinsert (L := L) (m := m) t.entries hsearch
      (fun e he => absurd he (by simp [hnil])) hgrows.1
      (by rw [hnil, hlen, List.length_nil]; omega)
      (by simp only [larger]; omega)
  rw [hnil, List.append_nil] at hperm
  have hcount : t'.elementsLengthCur = t.elementsLengthCur + t.entries.length := hcur'
  have hmax'' : t'.elementsLengthMax = t.elementsLengthMax * 2 := hmax'.trans hmax
  have hsix : 6 ≤ t'.elementsLengthMaxLog2 := hlog' ▸ ht.le_log2.trans (Nat.le_succ _)
  refine ⟨t', (ht.grow_of_space hgrows).trans hrun, ⟨ht'.length, ht'.power, ht'.log2_le, hsix, hfind', ?_, ?_,
    fun _ => ?_⟩, hperm⟩
  · rw [hperm.length_eq, hcount]
    omega
  · rw [hperm.length_eq, hcount, hmax'']
    omega
  · rw [hperm.length_eq, hcount, hmax'']
    omega

/-- **A table of `2 ^ 31` slots is replaced by one without slots.** -/
theorem grow_of_max (hgrows : Grows t) (hsize : t.elementsLengthMax = 2 ^ 31) (hpos : t.entries ≠ []) :
    growHashTableMaybe L mult m true t = .error .outside := by
  obtain ⟨e, es, hes⟩ := List.exists_cons_of_ne_nil hpos
  rw [ht.grow_of_space hgrows, hes, reinsert, List.foldlM_cons, insertHashTableElem]
  simp only [look, larger, hsize, show wrap (2 ^ 31 * 2) = 0 from rfl, List.replicate_zero,
    List.getElem?_nil]
  rfl

/-- **Growing succeeds** unless a table of `2 ^ 31` slots has to be replaced and there is space. -/
theorem exists_grown {space : Bool}
    (hroom : Grows t → space = true → t.elementsLengthMax < 2 ^ 31) :
    ∃ t', growHashTableMaybe L mult m space t = .ok t' ∧ WellFormed mult t' ∧
      t'.entries.Perm t.entries := by
  by_cases hgrows : Grows t
  · cases space with
    | false =>
        obtain ⟨hrun, hwf⟩ := ht.grow_of_no_space (L := L) (m := m) hgrows
        exact ⟨_, hrun, hwf, .refl _⟩
    | true => exact ht.exists_grow hgrows (hroom hgrows rfl)
  · obtain ⟨hrun, hwf⟩ := ht.grow_of_not_grows (L := L) (m := m) space hgrows
    exact ⟨t, hrun, hwf, .refl _⟩

end Inserted

/-! ## One call -/

/-- The hash of an object of `n` bytes. -/
def hashOf (L : Layout) (m : Memory) (object n : ℕ) : ℕ :=
  hashWords m (wordsIn object (object + n)) object (wrap (L.getHeader m object))

/-- The entry is one of an equal object. -/
def Matches (L : Layout) (m : Memory) (object n : ℕ) (e : Element) : Prop :=
  hashOf L m object n = e.hash ∧ Same L m object e.object

/-- After `i` other entries the search gets to this one. -/
def GetsTo (L : Layout) (mult : ℕ) (m : Memory) (t : Table) (object n i : ℕ) (e : Element) : Prop :=
  Passes mult t (hashOf L m object n) (fun e => ¬ Matches L m object n e) i ∧
    t.elements[slotAt mult t (hashOf L m object n) i]? = some (some e)

/-- The search gets to no object that takes fewer bytes, all of which agree. -/
def NoneExtended (L : Layout) (mult : ℕ) (m : Memory) (t : Table) (object n : ℕ) : Prop :=
  ∀ i e, GetsTo L mult m t object n i e → hashOf L m object n = e.hash → ¬ ExtendedBy L m object e.object

/-- If the table has `2 ^ 31` slots, then it does not have to grow, or there is no space. -/
def Room (L : Layout) (mult : ℕ) (m : Memory) (space : Bool) (t : Table) (object n : ℕ) : Prop :=
  t.elementsLengthMax < 2 ^ 31 ∨ t.mayInsert = false ∨ space = false ∨ t.elementsLengthCur < 2 ^ 30 ∨
    t.elementsLengthCur = 2 ^ 30 ∧ ∃ i e, GetsTo L mult m t object n i e ∧ Matches L m object n e

/-- **What a call needs**, for an object without identity. -/
def Fits (L : Layout) (mult : ℕ) (m : Memory) (space : Bool) (t : Table) (object : ℕ) : Prop :=
  ∀ ty n, L.splitHeader (L.getHeader m object) = some ty → ty.hasIdentity = false →
    L.sizeofObjectNoMetaData m object = some n →
    NoneExtended L mult m t object n ∧ Room L mult m space t object n

/-- **What a call leaves**: the object that is returned is equal to the given one, which is returned if it
has identity; every entry stays and can be found, a slot is free, and only words of the objects in the
table have been read of them. -/
structure Sound (L : Layout) (mult : ℕ) (m : Memory) (t : Table) (object : ℕ) (out : Outcome) : Prop where
  same : Same L m object out.res
  identity : ∀ ty, L.splitHeader (L.getHeader m object) = some ty → ty.hasIdentity = true →
    out.res = object ∧ out.table = t
  stored : out.res ≠ object → ∃ e ∈ t.entries, e.object = out.res
  kept : ∀ e ∈ t.entries, e ∈ out.table.entries
  findable : Findable mult out.table
  free : none ∈ out.table.elements
  within : ∀ read ∈ out.reads, Within L m read

section Call

variable (hL : Padded L) (hobject : Sharable L m object) (hn : L.sizeofObjectNoMetaData m object = some n)

/-- A call for an object without identity. -/
theorem hashConsPointer_eq {space : Bool} {ty : ObjectType} (hobject : Sharable L m object)
    (hty : L.splitHeader (L.getHeader m object) = some ty) (hid : ty.hasIdentity = false)
    (hn : L.sizeofObjectNoMetaData m object = some n) :
    hashConsPointer L mult m space t object = (do
      let out ← insertHashTableElem L mult m t (hashOf L m object n) object (object + n) true
      let t ← growHashTableMaybe L mult m space out.table
      pure ⟨t, out.res, out.reads⟩) := by
  obtain ⟨ty', hty', htag⟩ := hobject
  obtain rfl := Option.some.inj (hty.symm.trans hty')
  have hsize : (if ty.tag = .sequence then L.sizeofSequenceNoMetaData (L.getSequenceLength m object) ty
      else L.bytesOf ty) = n := by
    simp only [Layout.sizeofObjectNoMetaData, hty, Option.bind_eq_bind, Option.bind_some] at hn
    cases htg : ty.tag with
    | stack => exact absurd htg htag
    | sequence => simpa [htg] using hn
    | normal => simpa [htg] using hn
    | weak => simpa [htg] using hn
  simp only [hashConsPointer, hty, hid, Bool.false_eq_true, if_false, hsize]
  rfl

include hL hobject hn

theorem differs_iff {e : Element} :
    Differs L m (hashOf L m object n) object (object + n) true e ↔ ¬ Matches L m object n e := by
  rw [Differs, Matches, compareObjects_fst hL hobject hn]
  simp only [true_and]

theorem passes_iff {i : ℕ} :
    Passes mult t (hashOf L m object n) (Differs L m (hashOf L m object n) object (object + n) true) i ↔
      Passes mult t (hashOf L m object n) (fun e => ¬ Matches L m object n e) i :=
  ⟨fun h => h.mono (fun _ => (differs_iff hL hobject hn).mp) le_rfl,
    fun h => h.mono (fun _ => (differs_iff hL hobject hn).mpr) le_rfl⟩

/-- **What is read at the first slots** is of the objects there. -/
theorem within_readsUpTo {k : ℕ} :
    (∀ read ∈ readsUpTo L mult m t (hashOf L m object n) object (object + n) true k, Within L m read) ↔
      ∀ j < k, ∀ e, t.elements[slotAt mult t (hashOf L m object n) j]? = some (some e) →
        hashOf L m object n = e.hash → ¬ ExtendedBy L m object e.object := by
  constructor
  · intro h j hj e he hhash
    refine (within_compareObjects hL hobject hn).mp fun read hread => h read ?_
    refine List.mem_flatMap.mpr ⟨j, List.mem_range.mpr hj, ?_⟩
    rw [readsAt, he]
    dsimp only
    rwa [if_pos ⟨hhash, rfl⟩]
  · intro h read hread
    obtain ⟨j, hj, hread⟩ := List.mem_flatMap.mp hread
    rw [readsAt] at hread
    split at hread
    next e he =>
      split at hread
      next hhash =>
        exact (within_compareObjects hL hobject hn).mpr
          (h j (List.mem_range.mp hj) e he hhash.1) read hread
      next => exact absurd hread List.not_mem_nil
    next => exact absurd hread List.not_mem_nil

/-- What is read up to the end of the search is of the objects there if no object that the search gets
to is extended. -/
theorem within_iff_noneExtended {k : ℕ}
    (hpass : ∀ j < k, Passes mult t (hashOf L m object n) (fun e => ¬ Matches L m object n e) j)
    (hend : ∀ i e, k ≤ i → ¬ GetsTo L mult m t object n i e) :
    (∀ read ∈ readsUpTo L mult m t (hashOf L m object n) object (object + n) true k, Within L m read) ↔
      NoneExtended L mult m t object n := by
  rw [within_readsUpTo hL hobject hn]
  constructor
  · intro h i e hi
    rcases Nat.lt_or_ge i k with hlt | hge
    · exact h i hlt e hi.2
    · exact absurd hi (hend i e hge)
  · intro h j hj e he
    exact h j e ⟨hpass j hj, he⟩

end Call

/-- What `insertHashTableElem` does to a table between two calls. -/
structure Effect (L : Layout) (mult : ℕ) (m : Memory) (t : Table) (object n : ℕ) (out : Outcome) :
    Prop where
  inserted : Inserted mult out.table
  same : Same L m object out.res
  stored : out.res ≠ object → ∃ e ∈ t.entries, e.object = out.res
  kept : ∀ e ∈ t.entries, e ∈ out.table.entries
  within_iff : (∀ read ∈ out.reads, Within L m read) ↔ NoneExtended L mult m t object n
  max_eq : out.table.elementsLengthMax = t.elementsLengthMax
  room_iff : (∀ space, (Grows out.table → space = true → out.table.elementsLengthMax < 2 ^ 31) ↔
    Room L mult m space t object n)
  nonempty : Grows out.table → out.table.entries ≠ []

theorem WellFormed.inserted (ht : WellFormed mult t) : Inserted mult t :=
  ⟨ht.searchable, ht.le_log2, ht.findable, ht.entries_le, ht.cur_le, fun hmay =>
    (ht.insertable hmay).1.trans (by omega)⟩

theorem mem_entries {k : ℕ} {e : Element} (he : t.elements[k]? = some (some e)) : e ∈ t.entries :=
  List.reduceOption_mem_iff.mpr (List.mem_of_getElem? he)

theorem effect_of_ends (hL : Padded L) (ht : WellFormed mult t) (hobject : Sharable L m object)
    (hn : L.sizeofObjectNoMetaData m object = some n) {out : Outcome}
    (hends : Ends L mult m t (hashOf L m object n) object (object + n) true out) :
    Effect L mult m t object n out := by
  have hmax := ht.max_le
  cases hends with
  | found i e hpass he hsame =>
      rw [passes_iff hL hobject hn] at hpass
      rw [differs_iff hL hobject hn, not_not] at hsame
      refine ⟨ht.inserted, hsame.2, fun _ => ⟨e, mem_entries he, rfl⟩, fun _ h => h, ?_, rfl, ?_,
        fun _ hnil => List.not_mem_nil (hnil ▸ mem_entries he)⟩
      · refine within_iff_noneExtended hL hobject hn
          (fun j hj => hpass.mono (fun _ h => h) (Nat.lt_succ_iff.mp hj)) fun i' e' hi' hgets => ?_
        obtain ⟨e'', he'', hother⟩ := hgets.1 i hi'
        obtain rfl : e = e'' := by simpa [slotAt] using he.symm.trans he''
        exact hother hsame
      · intro space
        rw [Room, Grows]
        have hmet : ∃ i e, GetsTo L mult m t object n i e ∧ Matches L m object n e :=
          ⟨i, e, ⟨hpass, he⟩, hsame⟩
        simp only [hmet, and_true]
        cases hmay : t.mayInsert with
        | false => simp
        | true =>
            cases space with
            | false => simp
            | true =>
                simp only [true_and, forall_const, Bool.true_eq_false, false_or]
                omega
  | insert i hpass hi hfree hmay =>
      rw [passes_iff hL hobject hn] at hpass
      have hperm := entries_insert (e := ⟨hashOf L m object n, object⟩) hfree
      have hle := ht.entries_le
      have hins := ht.insertable hmay
      have hcount : (t.insert (slotAt mult t (hashOf L m object n) i)
          ⟨hashOf L m object n, object⟩).elementsLengthCur = t.elementsLengthCur + 1 :=
        Nat.mod_eq_of_lt (by omega)
      have hend : ∀ i' e, i ≤ i' → ¬ GetsTo L mult m t object n i' e := by
        intro i' e hi' hgets
        rcases hi'.eq_or_lt with rfl | hlt
        · exact absurd (hfree.symm.trans hgets.2) (by simp)
        · obtain ⟨e', he', -⟩ := hgets.1 i hlt
          exact absurd (hfree.symm.trans he') (by simp)
      refine ⟨⟨ht.searchable.insert hfree ht.entries_lt, ht.le_log2,
          findable_insert ht.findable hpass hi hfree, ?_, ?_, fun _ => ?_⟩, .refl object,
        fun h => absurd rfl h, fun e he => hperm.mem_iff.mpr (List.mem_cons_of_mem _ he), ?_, rfl, ?_,
        fun _ hnil => List.not_mem_nil (hnil ▸ hperm.mem_iff.mpr List.mem_cons_self)⟩
      · rw [hperm.length_eq, hcount, List.length_cons]
        omega
      · rw [hperm.length_eq, hcount, List.length_cons]
        simp only [Table.insert]
        omega
      · rw [hcount]
        simp only [Table.insert]
        omega
      · exact within_iff_noneExtended hL hobject hn
          (fun j hj => hpass.mono (fun _ h => h) hj.le) hend
      · intro space
        have hunmet : ¬ ∃ i e, GetsTo L mult m t object n i e ∧ Matches L m object n e := by
          rintro ⟨i', e, hgets, hmatch⟩
          rcases Nat.lt_or_ge i' i with hlt | hge
          · obtain ⟨e', he', hother⟩ := hpass i' hlt
            obtain rfl : e = e' := by simpa [slotAt] using hgets.2.symm.trans he'
            exact hother hmatch
          · exact hend i' e hge hgets
        rw [Room, Grows, hcount]
        simp only [hunmet, and_false, or_false, Table.insert, hmay, true_and]
        cases space with
        | false => simp
        | true =>
            simp only [forall_const, Bool.true_eq_false, false_or]
            omega
  | full i hpass hfree hmay =>
      rw [passes_iff hL hobject hn] at hpass
      refine ⟨ht.inserted, .refl object, fun h => absurd rfl h, fun _ h => h, ?_, rfl, ?_,
        fun h => absurd (hmay.symm.trans h.1) (by simp)⟩
      · refine within_iff_noneExtended hL hobject hn
          (fun j hj => hpass.mono (fun _ h => h) hj.le) fun i' e hi' hgets => ?_
        rcases hi'.eq_or_lt with rfl | hlt
        · exact absurd (hfree.symm.trans hgets.2) (by simp)
        · obtain ⟨e', he', -⟩ := hgets.1 i hlt
          exact absurd (hfree.symm.trans he') (by simp)
      · intro space
        simp [Room, Grows, hmay]

/-! ## Runs -/

/-- **The tables that calls lead to**, each with the memory there is and an answer to whether there is
space, if every call meets the condition. -/
inductive Reached (L : Layout) (mult : ℕ) (C : Memory → Bool → Table → ℕ → Prop) : Table → Prop
  | alloc {p : ℕ} : 6 ≤ p → p ≤ 31 → Reached L mult C (Table.alloc p)
  | call {m : Memory} {space : Bool} {t : Table} {object : ℕ} {out : Outcome} : Reached L mult C t →
      Sharable L m object → C m space t object → hashConsPointer L mult m space t object = .ok out →
      Reached L mult C out.table

/-- **A call that has what it needs leaves what it should.** -/
theorem exists_sound (hL : Padded L) (ht : WellFormed mult t) (hobject : Sharable L m object)
    {space : Bool} (hfits : Fits L mult m space t object) :
    ∃ out, hashConsPointer L mult m space t object = .ok out ∧ WellFormed mult out.table ∧
      Sound L mult m t object out := by
  obtain ⟨ty, hty, htag⟩ := hobject
  cases hid : ty.hasIdentity with
  | true =>
      refine ⟨⟨t, object, []⟩, ?_, ht, .refl object, fun _ _ _ => ⟨rfl, rfl⟩, fun h => absurd rfl h,
        fun _ h => h, ht.findable, ht.searchable.free, fun _ h => absurd h List.not_mem_nil⟩
      simp only [hashConsPointer, hty, hid, if_true]
      rfl
  | false =>
      obtain ⟨n, hn⟩ := exists_size ⟨ty, hty, htag⟩
      obtain ⟨hnone, hroom⟩ := hfits ty n hty hid hn
      obtain ⟨out, hout, hends⟩ := exists_ends L mult m (hashOf L m object n) object (object + n) true
        ht.searchable
      have heffect := effect_of_ends hL ht ⟨ty, hty, htag⟩ hn hends
      obtain ⟨t', hgrow, ht', hperm⟩ :=
        heffect.inserted.exists_grown (L := L) (m := m) ((heffect.room_iff space).mpr hroom)
      refine ⟨⟨t', out.res, out.reads⟩, ?_, ht', heffect.same, fun ty' hty' hid' => ?_, heffect.stored,
        fun e he => hperm.mem_iff.mpr (heffect.kept e he), ht'.findable, ht'.searchable.free,
        heffect.within_iff.mpr hnone⟩
      · rw [hashConsPointer_eq ⟨ty, hty, htag⟩ hty hid hn, hout]
        exact congrArg (fun r : Except Fault Table => r >>= fun t => pure (⟨t, out.res, out.reads⟩ : Outcome))
          hgrow
      · obtain rfl := Option.some.inj (hty.symm.trans hty')
        exact absurd (hid.symm.trans hid') Bool.false_ne_true

/-- **A call that leaves what it should had what it needs.** -/
theorem fits_of_sound (hL : Padded L) (ht : WellFormed mult t) (hobject : Sharable L m object)
    {space : Bool} {out : Outcome} (hrun : hashConsPointer L mult m space t object = .ok out)
    (hsound : Sound L mult m t object out) : Fits L mult m space t object := by
  intro ty n hty hid hn
  obtain ⟨out', hout, hends⟩ := exists_ends L mult m (hashOf L m object n) object (object + n) true
    ht.searchable
  have heffect := effect_of_ends hL ht hobject hn hends
  have hgrow : (growHashTableMaybe L mult m space out'.table >>= fun t => pure ⟨t, out'.res, out'.reads⟩) =
      .ok out := by
    rw [hashConsPointer_eq hobject hty hid hn, hout] at hrun
    exact hrun
  constructor
  · refine heffect.within_iff.mp ?_
    cases hg : growHashTableMaybe L mult m space out'.table with
    | error f =>
        rw [hg] at hgrow
        exact nomatch hgrow
    | ok t' =>
        rw [hg] at hgrow
        obtain rfl : (⟨t', out'.res, out'.reads⟩ : Outcome) = out := Except.ok.inj hgrow
        exact hsound.within
  · refine (heffect.room_iff space).mp fun hgrows hspace => Nat.lt_of_not_ge fun hge => ?_
    subst hspace
    rw [heffect.inserted.grow_of_max hgrows (heffect.inserted.max_le.antisymm hge)
      (heffect.nonempty hgrows)] at hgrow
    exact nomatch hgrow

/-- A table that calls lead to is well-formed. -/
theorem Reached.wellFormed (hL : Padded L) (ht : Reached L mult (Fits L mult) t) : WellFormed mult t := by
  induction ht with
  | alloc hp hp' => exact wellFormed_alloc hp hp'
  | call _ hobject hfits hrun ih =>
      obtain ⟨out', hrun', hwf, -⟩ := exists_sound hL ih hobject hfits
      obtain rfl := Except.ok.inj (hrun'.symm.trans hrun)
      exact hwf

/-- **Sharing merges equal objects only, and leaves every table searchable**, in every run whose calls find
no extended object and no table that cannot grow, and a call fails if it does. -/
theorem hashConsPointer_sound_iff (hL : Padded L) (ht : Reached L mult (Fits L mult) t)
    (hobject : Sharable L m object) {space : Bool} :
    (∃ out, hashConsPointer L mult m space t object = .ok out ∧ Sound L mult m t object out) ↔
      Fits L mult m space t object := by
  constructor
  · rintro ⟨out, hrun, hsound⟩
    exact fits_of_sound hL (ht.wellFormed hL) hobject hrun hsound
  · intro hfits
    obtain ⟨out, hrun, -, hsound⟩ := exists_sound hL (ht.wellFormed hL) hobject hfits
    exact ⟨out, hrun, hsound⟩

/-! ## A shorter vector at the end of the heap -/

/-- One type: vectors of 32-bit words. -/
def wordVectors : Layout where
  alignment := 4
  frameInfos := []
  maxFrameSize := 0
  objectTypes := [⟨.sequence, false, 4, 0⟩]
  returnAddressToFrameIndex := id
  wordSize := 8
  align48 := four_allowed
  native := eight_allowed

theorem padded_wordVectors : Padded wordVectors := by
  intro ty hty htag
  obtain rfl := List.mem_singleton.mp hty
  simp at htag

/-- The vector of the word `2 ^ 32 - 30`, at the address 24, and behind it the empty vector, at 52.  Both
have the hash 1. -/
def twoVectors : Memory := fun a =>
  match a with
  | 8 | 16 | 44 => 1
  | 24 => 0xE2
  | 25 | 26 | 27 => 0xFF
  | _ => 0

theorem sharable_twoVectors {p : ℕ} (h : wordVectors.getHeader twoVectors p = 1) :
    Sharable wordVectors twoVectors p :=
  ⟨⟨.sequence, false, 4, 0⟩, by rw [h]; rfl, nofun⟩

/-- The table after the empty vector has been entered. -/
def afterEmpty : Table := (Table.alloc 6).insert 39 ⟨1, 52⟩

theorem hashConsPointer_empty :
    hashConsPointer wordVectors 2654435769 twoVectors true (Table.alloc 6) 52 =
      .ok ⟨afterEmpty, 52, []⟩ := by rfl

/-- **The word behind the empty vector is read.** -/
theorem hashConsPointer_word :
    hashConsPointer wordVectors 2654435769 twoVectors true afterEmpty 24 =
      .ok ⟨afterEmpty.insert 14 ⟨1, 24⟩, 24, [(52, 56)]⟩ := by rfl

/-- Nothing is entered, so that nothing is extended. -/
theorem fits_alloc : Fits wordVectors 2654435769 twoVectors true (Table.alloc 6) 52 := by
  intro ty n _ _ _
  refine ⟨fun i e hgets => ?_, .inl (by decide)⟩
  have hmem : e ∈ (Table.alloc 6).entries := mem_entries hgets.2
  rw [show (Table.alloc 6).entries = [] from rfl] at hmem
  exact absurd hmem List.not_mem_nil

/-- The first vector is entered as it should be. -/
theorem sound_empty : ∃ out, hashConsPointer wordVectors 2654435769 twoVectors true (Table.alloc 6) 52 =
    .ok out ∧ Sound wordVectors 2654435769 twoVectors (Table.alloc 6) 52 out := by
  refine (hashConsPointer_sound_iff padded_wordVectors ?_ (sharable_twoVectors (p := 52) rfl)).mpr
    fits_alloc
  exact .alloc le_rfl (by decide)

/-- **Not every call leaves what it should**: the length of the shorter vector is compared too late. -/
theorem not_always_sound : ¬ ∀ (L : Layout) (mult : ℕ) (m : Memory) (space : Bool) (t : Table)
    (object : ℕ), Padded L → Reached L mult (fun _ _ _ _ => True) t → Sharable L m object →
    ∃ out, hashConsPointer L mult m space t object = .ok out ∧ Sound L mult m t object out := by
  intro h
  have hreached : Reached wordVectors 2654435769 (fun _ _ _ _ => True) afterEmpty :=
    .call (.alloc le_rfl (by decide)) (sharable_twoVectors (p := 52) rfl) trivial hashConsPointer_empty
  obtain ⟨out, hrun, hsound⟩ := h wordVectors 2654435769 twoVectors true afterEmpty 24
    padded_wordVectors hreached (sharable_twoVectors (p := 24) rfl)
  obtain rfl := Except.ok.inj (hashConsPointer_word.symm.trans hrun)
  obtain ⟨n, hn, hle⟩ := hsound.within _ List.mem_cons_self
  obtain rfl : 0 = n := Option.some.inj hn
  exact absurd hle (by decide)

end MLton.Runtime.HashCons
