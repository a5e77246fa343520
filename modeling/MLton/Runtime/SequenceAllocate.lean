import MLton.Runtime.CollectSizes

/-!
# Runtime/SequenceAllocate — allocating a sequence

`GC_sequenceAllocate` computes the size of a sequence and checks that nothing of it wraps around.  A long
sequence then goes to the end of the old generation, and a short one to the nursery, with the bytes that are to
be left free added to its size.  Neither this sum nor the one in `hasHeapBytesFree` is checked.

A sequence is served right (`Served`) if all its bytes are in the free space of a well-formed state, the bytes
that are to be left free are, its metadata are written and its pointers are bogus.
-/

namespace MLton.Runtime

/-- What becomes of a request. -/
inductive Outcome where
  | outOfMemory
  | allocated (result : ℕ) (s : Space)

namespace Layout

variable (L : Layout)

/-! ## The sizes of a sequence -/

/-- `sequenceSize` and `sequenceSizeAligned`, where they do not overflow. -/
def sequenceSizes (bytesPerElement numElements : ℕ) : Option (ℕ × ℕ) :=
  if 0 < bytesPerElement ∧ SizeT.max L.sizeBits / bytesPerElement < numElements then none
  else
    let sequenceSize := SizeT.mul L.sizeBits bytesPerElement numElements
    if SizeT.max L.sizeBits - L.sequenceMetaDataSize < sequenceSize then none
    else
      let sequenceSize := SizeT.add L.sizeBits sequenceSize L.sequenceMetaDataSize
      let sequenceSizeAligned := SizeT.align L.sizeBits sequenceSize L.alignment
      if sequenceSizeAligned < sequenceSize then none else some (sequenceSize, sequenceSizeAligned)

/-! ## Initialising a sequence -/

/-- Write `BOGUS_OBJPTR` into the object pointers from `p` up to `last`: where that ends. -/
def writeBogus (last : ℕ) : ℕ → ℕ → Memory → Option (ℕ × Memory)
  | 0, _, _ => none
  | k + 1, p, m =>
    if p < last then
      writeBogus last k (SizeT.add L.sizeBits p L.wordSize) (m.write L.wordSize p bogusObjptr)
    else some (p, m)

/-- The same in elements of which only the last bytes are object pointers. -/
def writeBogusElements (ty : ObjectType) (last : ℕ) : ℕ → ℕ → Memory → Option Memory
  | 0, _, _ => none
  | k + 1, p, m =>
    if p < last then
      let p := SizeT.add L.sizeBits p ty.bytesNonObjptrs
      let next := SizeT.add L.sizeBits p (ty.numObjptrs * L.wordSize)
      (L.writeBogus next (ty.numObjptrs + 1) p m).bind fun r => writeBogusElements ty last k r.1 r.2
    else some m

/-- Initialize all pointers with `BOGUS_OBJPTR`.  There are as many steps as there are pointers, and one for
each element. -/
def initPointers (ty : ObjectType) (numElements frontier last : ℕ) (m : Memory) : Option Memory :=
  if 1 ≤ ty.numObjptrs ∧ 0 < numElements then
    if 0 = ty.bytesNonObjptrs then
      (L.writeBogus last (numElements * ty.numObjptrs + 1) frontier m).map Prod.snd
    else L.writeBogusElements ty last (numElements + 1) frontier m
  else some m

/-- The counter, the length and the header. -/
def writeMetaData (m : Memory) (frontier numElements header : ℕ) : Memory :=
  ((m.write L.wordSize frontier 0).write L.wordSize (SizeT.add L.sizeBits frontier L.wordSize) numElements).write
    L.wordSize (SizeT.add L.sizeBits (SizeT.add L.sizeBits frontier L.wordSize) L.wordSize) header

end Layout

/-! ## Allocating a sequence -/

namespace Space

variable (L : Layout) (G : Collector) (s : Space)

/-- Whether the sequence goes to the old generation. -/
def Direct (sequenceSizeAligned : ℕ) : Prop := s.oldGenSequenceSize ≤ sequenceSizeAligned

instance (sequenceSizeAligned : ℕ) : Decidable (s.Direct sequenceSizeAligned) := inferInstanceAs (Decidable (_ ≤ _))

/-- The state itself, if it says that there is room, or the one that `performGC` makes. -/
def ensure (oldGen nursery : ℕ) : Option Space :=
  if s.hasHeapBytesFree L oldGen nursery then some s else s.performGC L G oldGen nursery

/-- The state in which the space is taken. -/
def makeSpace (sequenceSizeAligned ensureBytesFree : ℕ) : Option Space :=
  if s.Direct sequenceSizeAligned then s.ensure L G sequenceSizeAligned ensureBytesFree
  else s.ensure L G 0 (SizeT.add L.sizeBits sequenceSizeAligned ensureBytesFree)

/-- Take the space: the end of the old generation, or the frontier, is moved. -/
def takeSpace (direct : Bool) (sequenceSizeAligned : ℕ) : ℕ × Space :=
  if direct then
    (SizeT.add L.sizeBits s.heap.start s.heap.oldGenSize,
      { s with heap := { s.heap with
        oldGenSize := SizeT.add L.sizeBits s.heap.oldGenSize sequenceSizeAligned } })
  else (s.frontier, { s with frontier := SizeT.add L.sizeBits s.frontier sequenceSizeAligned })

/-- Write the sequence. -/
def fill (ty : ObjectType) (sequenceSize numElements header frontier : ℕ) : Option Outcome :=
  let last := SizeT.add L.sizeBits frontier sequenceSize
  let result := SizeT.add L.sizeBits frontier L.sequenceMetaDataSize
  (L.initPointers ty numElements result last (L.writeMetaData s.mem frontier numElements header)).map fun m =>
    .allocated result { s with mem := m }

/-- `GC_sequenceAllocate`. -/
def sequenceAllocate (ensureBytesFree numElements header : ℕ) : Option Outcome := do
  let ty ← L.splitHeader header
  match L.sequenceSizes (L.bytesOf ty) numElements with
  | none => some .outOfMemory
  | some (sequenceSize, sequenceSizeAligned) =>
    match s.makeSpace L G sequenceSizeAligned ensureBytesFree with
    | none => some .outOfMemory
    | some s₂ =>
      let (frontier, s₃) := s₂.takeSpace L (s.Direct sequenceSizeAligned) sequenceSizeAligned
      s₃.fill L ty sequenceSize numElements header frontier

/-! ## What a request is served -/

/-- **A sequence is in the free space** of a well-formed state: `size` bytes from `first`, at the end of the old
generation or at the frontier, are all that is taken; the metadata are written, the pointers are bogus, and no
other byte changes. -/
structure Served (ty : ObjectType) (s s' : Space) (ensureBytesFree numElements header result first size : ℕ) :
    Prop where
  before : s.WellFormed L
  after : s'.WellFormed L
  inside : s'.heap.oldGenEnd = s.heap.oldGenEnd + size ∧ first = s.heap.oldGenEnd ∧ s'.frontier = s.frontier ∨
    s'.frontier = s.frontier + size ∧ first = s.frontier ∧ s'.heap.oldGenEnd = s.heap.oldGenEnd
  heap : s'.heap.start = s.heap.start ∧ s'.heap.size = s.heap.size ∧ s'.heap.nursery = s.heap.nursery
  holds : L.sequenceMetaDataSize + numElements * L.bytesOf ty ≤ size
  pointsTo : result = first + L.sequenceMetaDataSize
  free : s'.frontier + ensureBytesFree ≤ s'.limitPlusSlop
  sum : size + ensureBytesFree < 2 ^ L.sizeBits
  counter : L.word s'.mem first = 0
  length : L.getSequenceLength s'.mem result = numElements
  header : L.getHeader s'.mem result = header
  pointers : ∀ i < numElements,
    ∀ a ∈ L.objptrs (result + i * L.bytesOf ty + ty.bytesNonObjptrs) ty.numObjptrs, L.word s'.mem a = bogusObjptr
  others : ∀ a, a < first ∨ first + size ≤ a → s'.mem a = s.mem a

/-- **The request dies or is served right**, in the state in which the space is taken. -/
def Meets (ty : ObjectType) (ensureBytesFree numElements header : ℕ) : Prop :=
  ∃ o, s.sequenceAllocate L G ensureBytesFree numElements header = some o ∧
    ∀ result s', o = .allocated result s' → ∃ sequenceSize sequenceSizeAligned s₂ first,
      L.sequenceSizes (L.bytesOf ty) numElements = some (sequenceSize, sequenceSizeAligned) ∧
        s.makeSpace L G sequenceSizeAligned ensureBytesFree = some s₂ ∧
          Served L ty s₂ s' ensureBytesFree numElements header result first sequenceSizeAligned

/-- **When a request is served right.**  A short sequence and the bytes to be left free must not wrap around
together.  For a long one, the sum in `hasHeapBytesFree` must not wrap around if that says that there is room;
otherwise what is in use and the requests must not, unless the nursery is found too small. -/
def Fits (sequenceSizeAligned ensureBytesFree : ℕ) : Prop :=
  if s.Direct sequenceSizeAligned then
    if s.hasHeapBytesFree L sequenceSizeAligned ensureBytesFree then
      s.heap.oldGenSize + sequenceSizeAligned + s.times * (s.limitPlusSlop - s.heap.nursery) < 2 ^ L.sizeBits
    else
      s.used + sequenceSizeAligned + ensureBytesFree < 2 ^ L.sizeBits ∨
        s.Refused L sequenceSizeAligned ensureBytesFree
  else sequenceSizeAligned + ensureBytesFree < 2 ^ L.sizeBits

end Space

/-! ## The checks of the sizes -/

namespace Layout

variable {L : Layout} {ty : ObjectType} {m : Memory}

theorem two_pow_sizeBits : 2 ^ L.sizeBits = 256 ^ L.wordSize := by
  rw [sizeBits, pow_mul]
  norm_num

theorem metaData_le : L.sequenceMetaDataSize + L.alignment ≤ 2 ^ L.sizeBits := by
  unfold sequenceMetaDataSize sizeBits
  rcases L.native with hw | hw <;> rcases L.align48 with ha | ha <;> rw [hw, ha] <;> decide

/-- **The checks are complete**: the sizes that come through are those of the sequence. -/
theorem sequenceSizes_spec {bytesPerElement numElements sequenceSize sequenceSizeAligned : ℕ}
    (h : L.sequenceSizes bytesPerElement numElements = some (sequenceSize, sequenceSizeAligned)) :
    sequenceSize = L.sequenceMetaDataSize + numElements * bytesPerElement ∧ sequenceSize ≤ sequenceSizeAligned ∧
      sequenceSizeAligned < 2 ^ L.sizeBits := by
  have hmd := L.metaData_le
  have hpos := L.alignment_pos
  rw [sequenceSizes] at h
  split at h
  case isTrue => cases h
  case isFalse hno =>
    have hmul : bytesPerElement * numElements < 2 ^ L.sizeBits := by
      rcases Nat.eq_zero_or_pos bytesPerElement with rfl | hb
      · rw [Nat.zero_mul]
        exact Nat.two_pow_pos _
      · have hle : numElements ≤ SizeT.max L.sizeBits / bytesPerElement := by
          by_contra hlt
          exact hno ⟨hb, by omega⟩
        have := (Nat.le_div_iff_mul_le hb).mp hle
        rw [Nat.mul_comm] at this
        have := Nat.two_pow_pos L.sizeBits
        unfold SizeT.max at *
        omega
    dsimp only at h
    rw [SizeT.mul_eq hmul] at h
    split at h
    case isTrue => cases h
    case isFalse hno₂ =>
      have hadd : bytesPerElement * numElements + L.sequenceMetaDataSize < 2 ^ L.sizeBits := by
        unfold SizeT.max at hno₂
        omega
      rw [SizeT.add_eq hadd] at h
      split at h
      case isTrue => cases h
      case isFalse hno₃ =>
        cases Option.some.inj h
        exact ⟨by rw [Nat.mul_comm, Nat.add_comm], by omega, (SizeT.alignDown_le).trans_lt SizeT.add_lt⟩

/-! ## The loops -/

/-- **The pointers in a row are bogus**, by induction on how many there are, and nothing else changes. -/
theorem writeBogus_spec : ∀ {c k p : ℕ} {m : Memory}, c < k → p + c * L.wordSize < 2 ^ L.sizeBits →
    ∃ m', L.writeBogus (p + c * L.wordSize) k p m = some (p + c * L.wordSize, m') ∧
      (∀ i < c, L.word m' (p + i * L.wordSize) = bogusObjptr) ∧
        ∀ lo hi, hi ≤ p ∨ p + c * L.wordSize ≤ lo → m.Agree m' lo hi
  | 0, k + 1, p, m, _, _ => by
    refine ⟨m, ?_, nofun, fun _ _ _ => .refl⟩
    rw [writeBogus, if_neg (by omega), Nat.zero_mul, Nat.add_zero]
  | c + 1, k + 1, p, m, hk, hlt => by
    have hw := L.wordSize_pos
    have hstep : p + (c + 1) * L.wordSize = p + L.wordSize + c * L.wordSize := by rw [Nat.succ_mul]; omega
    have hadd : SizeT.add L.sizeBits p L.wordSize = p + L.wordSize := SizeT.add_eq (by omega)
    obtain ⟨m', hm', hbogus, hsame⟩ := writeBogus_spec (c := c) (k := k) (p := p + L.wordSize)
      (m := m.write L.wordSize p bogusObjptr) (by omega) (by omega)
    refine ⟨m', ?_, fun i hi => ?_, fun lo hi h => ?_⟩
    · rw [writeBogus, if_pos (by omega), hadd, hstep, hm']
    · cases i with
      | zero =>
        have hread := (hsame p (p + L.wordSize) (.inl le_rfl)).read_eq
        rw [Nat.zero_mul, Nat.add_zero, word, hread, Memory.read_write_of_lt]
        rw [← two_pow_sizeBits, bogusObjptr]
        exact Nat.one_lt_two_pow (by unfold sizeBits; omega)
      | succ i =>
        rw [show p + (i + 1) * L.wordSize = p + L.wordSize + i * L.wordSize by rw [Nat.succ_mul]; omega]
        exact hbogus i (by omega)
    · exact (Memory.agree_write (by omega)).trans (hsame lo hi (by omega))

variable (ty) in
/-- **The pointers of all elements are bogus**, by induction on the elements. -/
theorem writeBogusElements_spec : ∀ {n k p : ℕ} {m : Memory}, n < k → p + n * L.bytesOf ty < 2 ^ L.sizeBits →
    0 < L.bytesOf ty → ∃ m', L.writeBogusElements ty (p + n * L.bytesOf ty) k p m = some m' ∧
      (∀ i < n, ∀ j < ty.numObjptrs,
        L.word m' (p + i * L.bytesOf ty + ty.bytesNonObjptrs + j * L.wordSize) = bogusObjptr) ∧
        ∀ lo hi, hi ≤ p ∨ p + n * L.bytesOf ty ≤ lo → m.Agree m' lo hi
  | 0, k + 1, p, m, _, _, _ => by
    refine ⟨m, ?_, nofun, fun _ _ _ => .refl⟩
    rw [writeBogusElements, if_neg (by omega)]
  | n + 1, k + 1, p, m, hk, hlt, hpos => by
    have hbytes : L.bytesOf ty = ty.bytesNonObjptrs + ty.numObjptrs * L.wordSize := rfl
    have hstep : p + (n + 1) * L.bytesOf ty = p + L.bytesOf ty + n * L.bytesOf ty := by rw [Nat.succ_mul]; omega
    have hadd : SizeT.add L.sizeBits p ty.bytesNonObjptrs = p + ty.bytesNonObjptrs := SizeT.add_eq (by omega)
    have hnext : SizeT.add L.sizeBits (p + ty.bytesNonObjptrs) (ty.numObjptrs * L.wordSize) =
        p + ty.bytesNonObjptrs + ty.numObjptrs * L.wordSize := SizeT.add_eq (by omega)
    obtain ⟨m₁, hm₁, hbogus₁, hsame₁⟩ := writeBogus_spec (L := L) (c := ty.numObjptrs) (k := ty.numObjptrs + 1)
      (p := p + ty.bytesNonObjptrs) (m := m) (by omega) (by omega)
    have hend : p + ty.bytesNonObjptrs + ty.numObjptrs * L.wordSize = p + L.bytesOf ty := by omega
    obtain ⟨m', hm', hbogus, hsame⟩ := writeBogusElements_spec (n := n) (k := k) (p := p + L.bytesOf ty) (m := m₁)
      (by omega) (by omega) hpos
    refine ⟨m', ?_, fun i hi j hj => ?_, fun lo hi h => ?_⟩
    · rw [writeBogusElements, if_pos (by omega), hadd]
      dsimp only
      rw [hnext, hm₁, Option.bind_some, hend, hstep, hm']
    · cases i with
      | zero =>
        have hle : (j + 1) * L.wordSize ≤ ty.numObjptrs * L.wordSize := Nat.mul_le_mul_right _ hj
        rw [Nat.succ_mul] at hle
        have hread := (hsame (p + ty.bytesNonObjptrs + j * L.wordSize)
          (p + ty.bytesNonObjptrs + j * L.wordSize + L.wordSize) (.inl (by omega))).read_eq
        rw [Nat.zero_mul, Nat.add_zero, word, hread]
        exact hbogus₁ j hj
      | succ i =>
        rw [show p + (i + 1) * L.bytesOf ty = p + L.bytesOf ty + i * L.bytesOf ty by rw [Nat.succ_mul]; omega]
        exact hbogus i (by omega) j hj
    · exact (hsame₁ lo hi (by omega)).trans (hsame lo hi (by omega))

variable (ty) in
/-- **All pointers of a sequence are bogus**, and nothing in front of it or behind it changes. -/
theorem initPointers_spec {n p : ℕ} (hlt : p + n * L.bytesOf ty < 2 ^ L.sizeBits) :
    ∃ m', L.initPointers ty n p (p + n * L.bytesOf ty) m = some m' ∧
      (∀ i < n, ∀ a ∈ L.objptrs (p + i * L.bytesOf ty + ty.bytesNonObjptrs) ty.numObjptrs,
        L.word m' a = bogusObjptr) ∧
        ∀ lo hi, hi ≤ p ∨ p + n * L.bytesOf ty ≤ lo → m.Agree m' lo hi := by
  have hbytes : L.bytesOf ty = ty.bytesNonObjptrs + ty.numObjptrs * L.wordSize := rfl
  rw [initPointers]
  split
  case isFalse hnone =>
    refine ⟨m, rfl, fun i hi a ha => ?_, fun _ _ _ => .refl⟩
    obtain ⟨j, hj, -⟩ := L.mem_objptrs.mp ha
    exact absurd ⟨by omega, by omega⟩ hnone
  case isTrue hsome =>
    have hw := L.wordSize_pos
    have hptrs : 0 < ty.numObjptrs * L.wordSize := Nat.mul_pos hsome.1 hw
    split
    case isTrue hzero =>
      have hrow : n * L.bytesOf ty = n * ty.numObjptrs * L.wordSize := by
        rw [hbytes, ← hzero, Nat.zero_add, Nat.mul_assoc]
      rw [hrow] at hlt ⊢
      obtain ⟨m', hm', hbogus, hsame⟩ := writeBogus_spec (L := L) (m := m) (Nat.lt_succ_self (n * ty.numObjptrs)) hlt
      refine ⟨m', by rw [hm']; rfl, fun i hi a ha => ?_, hsame⟩
      obtain ⟨j, hj, rfl⟩ := L.mem_objptrs.mp ha
      have hin : i * ty.numObjptrs + j < n * ty.numObjptrs := by
        have := Nat.mul_le_mul_right ty.numObjptrs (Nat.succ_le_of_lt hi)
        rw [Nat.succ_mul] at this
        omega
      rw [← hzero, Nat.add_zero, hbytes, ← hzero, Nat.zero_add, ← Nat.mul_assoc, Nat.add_assoc, ← Nat.add_mul]
      exact hbogus _ hin
    case isFalse =>
      obtain ⟨m', hm', hbogus, hsame⟩ := writeBogusElements_spec (L := L) (m := m) ty (Nat.lt_succ_self n) hlt
        (by omega)
      refine ⟨m', hm', fun i hi a ha => ?_, hsame⟩
      obtain ⟨j, hj, rfl⟩ := L.mem_objptrs.mp ha
      exact hbogus i hi j hj

end Layout

namespace Space

variable {L : Layout} {G : Collector} {s s' s₂ : Space} {ty : ObjectType}
  {ensureBytesFree numElements header sequenceSize sequenceSizeAligned first : ℕ}

/-! ## The space that is taken -/

/-- **What comes out of `ensure`** is the state itself or what `performGC` leaves. -/
theorem ensure_room {a b : ℕ} (hG : G.Works L) (hs : s.WellFormed L)
    (hcheck : s.hasHeapBytesFree L a b →
      s.heap.oldGenSize + a + s.times * (s.limitPlusSlop - s.heap.nursery) < 2 ^ L.sizeBits)
    (hcollect : ¬ s.hasHeapBytesFree L a b → s.used + a + b < 2 ^ L.sizeBits ∨ a = 0 ∨ s.Refused L a b)
    (h : s.ensure L G a b = some s₂) : s₂.WellFormed L ∧ s₂.Room a b := by
  rw [ensure] at h
  split at h
  case isTrue hfree =>
    cases Option.some.inj h
    exact ⟨hs, (hs.hasHeapBytesFree_iff (hcheck hfree)).mp hfree⟩
  case isFalse hnot =>
    rcases hcollect hnot with hlt | hzero | hrefused
    · exact performGC_room hG hs (.inl hlt) h
    · exact performGC_room hG hs (.inr hzero) h
    · rw [performGC_of_refused hG hs hrefused] at h
      cases h

/-- The request for a short sequence never wraps around in the check. -/
theorem WellFormed.nursery_lt (h : s.WellFormed L) :
    s.heap.oldGenSize + 0 + s.times * (s.limitPlusSlop - s.heap.nursery) < 2 ^ L.sizeBits := by
  have := h.room
  have := h.size_lt
  omega

/-- **There is room for a request that fits**, with the bytes to be left free. -/
theorem makeSpace_room (hG : G.Works L) (hs : s.WellFormed L) (hfits : s.Fits L sequenceSizeAligned ensureBytesFree)
    (h : s.makeSpace L G sequenceSizeAligned ensureBytesFree = some s₂) : s₂.WellFormed L ∧
      if s.Direct sequenceSizeAligned then s₂.Room sequenceSizeAligned ensureBytesFree
      else s₂.Room 0 (sequenceSizeAligned + ensureBytesFree) := by
  rw [Fits] at hfits
  rw [makeSpace] at h
  split at h
  case isTrue hdirect =>
    rw [if_pos hdirect] at hfits ⊢
    refine ensure_room hG hs (fun hfree => ?_) (fun hnot => ?_) h
    · rwa [if_pos hfree] at hfits
    · rw [if_neg hnot] at hfits
      exact hfits.imp_right .inr
  case isFalse hdirect =>
    rw [if_neg hdirect] at hfits ⊢
    rw [SizeT.add_eq hfits] at h
    exact ensure_room hG hs (fun _ => hs.nursery_lt) (fun _ => .inr (.inl rfl)) h

/-! ## Requests that fit -/

/-- **A sequence is written into its space.** -/
theorem fill_spec {size : ℕ} (hsize : sequenceSize = L.sequenceMetaDataSize + numElements * L.bytesOf ty)
    (hle : sequenceSize ≤ size) (hlt : first + size < 2 ^ L.sizeBits) (hn : numElements < 2 ^ L.sizeBits)
    (hheader : header < 2 ^ L.sizeBits) : ∃ m, s.fill L ty sequenceSize numElements header first =
        some (.allocated (first + L.sequenceMetaDataSize) { s with mem := m }) ∧
      L.word m first = 0 ∧ L.getSequenceLength m (first + L.sequenceMetaDataSize) = numElements ∧
        L.getHeader m (first + L.sequenceMetaDataSize) = header ∧
          (∀ i < numElements, ∀ a ∈ L.objptrs (first + L.sequenceMetaDataSize + i * L.bytesOf ty +
            ty.bytesNonObjptrs) ty.numObjptrs, L.word m a = bogusObjptr) ∧
            ∀ a, a < first ∨ first + size ≤ a → m a = s.mem a := by
  have hmd : L.sequenceMetaDataSize = 3 * L.wordSize := rfl
  have hlast : SizeT.add L.sizeBits first sequenceSize =
      first + L.sequenceMetaDataSize + numElements * L.bytesOf ty := by
    rw [SizeT.add_eq (by omega)]
    omega
  have hresult : SizeT.add L.sizeBits first L.sequenceMetaDataSize = first + L.sequenceMetaDataSize :=
    SizeT.add_eq (by omega)
  have hfirst : SizeT.add L.sizeBits first L.wordSize = first + L.wordSize := SizeT.add_eq (by omega)
  have hsecond : SizeT.add L.sizeBits (first + L.wordSize) L.wordSize = first + L.wordSize + L.wordSize :=
    SizeT.add_eq (by omega)
  obtain ⟨m, hm, hbogus, hsame⟩ := Layout.initPointers_spec (L := L)
    (m := L.writeMetaData s.mem first numElements header) (n := numElements)
    (p := first + L.sequenceMetaDataSize) ty (by omega)
  have hread : ∀ a, a + L.wordSize ≤ first + L.sequenceMetaDataSize →
      L.word m a = L.word (L.writeMetaData s.mem first numElements header) a :=
    fun a ha => (hsame a (a + L.wordSize) (.inl ha)).read_eq
  rw [L.two_pow_sizeBits] at hn hheader
  refine ⟨m, ?_, ?_, ?_, ?_, hbogus, fun a ha => ?_⟩
  · rw [fill, hlast, hresult, hm]
    rfl
  · rw [hread _ (by omega), Layout.writeMetaData, hfirst, hsecond, Layout.word,
      Memory.read_write_of_disjoint (by omega), Memory.read_write_of_disjoint (by omega), Memory.read_write,
      Nat.zero_mod]
  · rw [Layout.getSequenceLength,
      show first + L.sequenceMetaDataSize - L.wordSize - L.wordSize = first + L.wordSize by omega,
      hread _ (by omega), Layout.writeMetaData, hfirst, hsecond, Layout.word,
      Memory.read_write_of_disjoint (by omega), Memory.read_write_of_lt hn]
  · rw [Layout.getHeader,
      show first + L.sequenceMetaDataSize - L.wordSize = first + L.wordSize + L.wordSize by omega,
      hread _ (by omega), Layout.writeMetaData, hfirst, hsecond, Layout.word, Memory.read_write_of_lt hheader]
  · rw [hsame a (a + 1) (by omega) a le_rfl (Nat.lt_succ_self a), Layout.writeMetaData, hfirst, hsecond]
    have hfront : s.mem.Agree (s.mem.write L.wordSize first 0) a (a + 1) :=
      Memory.agree_write (by omega)
    have hmeta := (hfront.trans (Memory.agree_write (n := L.wordSize) (a := first + L.wordSize) (v := numElements)
        (by omega))).trans (Memory.agree_write (n := L.wordSize) (a := first + L.wordSize + L.wordSize) (v := header)
          (by omega))
    exact hmeta a le_rfl (Nat.lt_succ_self a)

/-- Only the memory has changed. -/
theorem WellFormed.withMem (h : s.WellFormed L) (m : Memory) : WellFormed L { s with mem := m } where
  nursery_le := h.nursery_le
  frontier_le := h.frontier_le
  limit := h.limit
  limit_lt := h.limit_lt
  room := h.room

/-- **Space that is taken in one place** is served right. -/
theorem fill_serves {s₃ : Space} {size : ℕ}
    (hsizes : L.sequenceSizes (L.bytesOf ty) numElements = some (sequenceSize, size))
    (hn : numElements < 2 ^ L.sizeBits) (hheader : header < 2 ^ L.sizeBits)
    (hs₂ : s.makeSpace L G size ensureBytesFree = some s₂) (hbefore : s₂.WellFormed L) (hafter : s₃.WellFormed L)
    (hinside : s₃.heap.oldGenEnd = s₂.heap.oldGenEnd + size ∧ first = s₂.heap.oldGenEnd ∧
        s₃.frontier = s₂.frontier ∨
      s₃.frontier = s₂.frontier + size ∧ first = s₂.frontier ∧ s₃.heap.oldGenEnd = s₂.heap.oldGenEnd)
    (hheap : s₃.heap.start = s₂.heap.start ∧ s₃.heap.size = s₂.heap.size ∧ s₃.heap.nursery = s₂.heap.nursery)
    (hmem : s₃.mem = s₂.mem) (hfirst : first + size < 2 ^ L.sizeBits)
    (hfree : s₃.frontier + ensureBytesFree ≤ s₃.limitPlusSlop) (hsum : size + ensureBytesFree < 2 ^ L.sizeBits) :
    ∃ o, s₃.fill L ty sequenceSize numElements header first = some o ∧
      ∀ result s', o = .allocated result s' → ∃ sequenceSize sequenceSizeAligned s₂ first,
        L.sequenceSizes (L.bytesOf ty) numElements = some (sequenceSize, sequenceSizeAligned) ∧
          s.makeSpace L G sequenceSizeAligned ensureBytesFree = some s₂ ∧
            Served L ty s₂ s' ensureBytesFree numElements header result first sequenceSizeAligned := by
  obtain ⟨hsize, hle, -⟩ := L.sequenceSizes_spec hsizes
  obtain ⟨m, hm, hcounter, hlength, hhead, hbogus, hothers⟩ :=
    s₃.fill_spec hsize hle hfirst hn hheader
  refine ⟨_, hm, fun result s' ho => ?_⟩
  cases ho
  exact ⟨sequenceSize, size, s₂, first, hsizes, hs₂, hbefore, hafter.withMem m, hinside, hheap, hsize ▸ hle, rfl,
    hfree, hsum, hcounter, hlength, hhead, hbogus, fun a ha => hmem ▸ hothers a ha⟩

/-- **A request that fits dies or is served right.** -/
theorem meets_of_fits (hG : G.Works L) (hs : s.WellFormed L) (hn : numElements < 2 ^ L.sizeBits)
    (hheader : header < 2 ^ L.sizeBits) (hty : L.splitHeader header = some ty)
    (hfits : ∀ sequenceSize sequenceSizeAligned,
      L.sequenceSizes (L.bytesOf ty) numElements = some (sequenceSize, sequenceSizeAligned) →
        s.Fits L sequenceSizeAligned ensureBytesFree) :
    s.Meets L G ty ensureBytesFree numElements header := by
  rw [Meets, sequenceAllocate, hty]
  dsimp only [Option.bind_eq_bind, Option.bind_some]
  split
  case h_1 => exact ⟨_, rfl, nofun⟩
  case h_2 sequenceSize size hsizes =>
    split
    case h_1 => exact ⟨_, rfl, nofun⟩
    case h_2 s₂ hs₂ =>
      obtain ⟨hwf, hroom⟩ := makeSpace_room hG hs (hfits _ _ hsizes) hs₂
      have hlimit := hwf.limit_lt
      have hnursery := hwf.nursery_le
      have hfrontier := hwf.frontier_le
      have hend := hwf.limit
      have hone := Nat.mul_le_mul_right (s₂.limitPlusSlop - s₂.heap.nursery) s₂.times_pos
      unfold Heap.limit at hend hlimit
      split at hroom
      case isTrue hdirect =>
        have hroom' := hroom.oldGen
        have hadd : SizeT.add L.sizeBits s₂.heap.oldGenSize size = s₂.heap.oldGenSize + size :=
          SizeT.add_eq (by omega)
        have hfirst : SizeT.add L.sizeBits s₂.heap.start s₂.heap.oldGenSize = s₂.heap.oldGenEnd :=
          SizeT.add_eq (by omega)
        rw [decide_eq_true hdirect, takeSpace, if_pos rfl, hadd, hfirst]
        exact fill_serves hsizes hn hheader hs₂ hwf
          ⟨hnursery, hfrontier, hwf.limit, hwf.limit_lt, hroom.oldGen⟩
          (.inl ⟨(Nat.add_assoc ..).symm, rfl, rfl⟩) ⟨rfl, rfl, rfl⟩ rfl (by unfold Heap.oldGenEnd; omega)
          hroom.nursery (hroom.lt hwf)
      case isFalse hdirect =>
        have hroom' := hroom.nursery
        have hadd : SizeT.add L.sizeBits s₂.frontier size = s₂.frontier + size := SizeT.add_eq (by omega)
        rw [decide_eq_false hdirect, takeSpace, if_neg nofun, hadd]
        exact fill_serves hsizes hn hheader hs₂ hwf
          ⟨Nat.le_add_right_of_le hnursery, by dsimp only; omega, hwf.limit, hwf.limit_lt, hwf.room⟩
          (.inr ⟨rfl, rfl, rfl⟩) ⟨rfl, rfl, rfl⟩ rfl (by omega) (by dsimp only; omega) (by omega)

/-! ## Requests that do not -/

/-- **Who is served right has room.** -/
theorem Meets.room (h : s.Meets L G ty ensureBytesFree numElements header) (hty : L.splitHeader header = some ty)
    (hsizes : L.sequenceSizes (L.bytesOf ty) numElements = some (sequenceSize, sequenceSizeAligned))
    (hs₂ : s.makeSpace L G sequenceSizeAligned ensureBytesFree = some s₂) :
    sequenceSizeAligned + ensureBytesFree < 2 ^ L.sizeBits ∧
      (s.Direct sequenceSizeAligned → s₂.Room sequenceSizeAligned ensureBytesFree) := by
  obtain ⟨o, ho, hserved⟩ := h
  rw [sequenceAllocate, hty] at ho
  dsimp only [Option.bind_eq_bind, Option.bind_some] at ho
  rw [hsizes] at ho
  dsimp only at ho
  rw [hs₂] at ho
  dsimp only at ho
  rw [fill] at ho
  obtain ⟨m, hm, rfl⟩ := Option.map_eq_some_iff.mp ho
  obtain ⟨_, _, _, first, hsizes', hs₂', hserved⟩ := hserved _ _ rfl
  cases hsizes.symm.trans hsizes'
  cases hs₂.symm.trans hs₂'
  refine ⟨hserved.sum, fun hdirect => ?_⟩
  obtain ⟨hsize, hle, -⟩ := L.sequenceSizes_spec hsizes
  have hw := L.wordSize_pos
  have hmd : L.sequenceMetaDataSize = 3 * L.wordSize := rfl
  have hinside := hserved.inside
  have hroom := hserved.after.room
  have hfree := hserved.free
  rw [decide_eq_true hdirect, takeSpace, if_pos rfl] at hinside hroom hfree
  dsimp only at hinside hroom hfree
  rcases hinside with ⟨hend, -, -⟩ | ⟨hfrontier, -, -⟩
  · have hadd : SizeT.add L.sizeBits s₂.heap.oldGenSize sequenceSizeAligned =
        s₂.heap.oldGenSize + sequenceSizeAligned := by
      unfold Heap.oldGenEnd at hend
      dsimp only at hend
      omega
    rw [hadd] at hroom
    exact ⟨hroom, hfree⟩
  · omega

/-- **A request that does not fit is not served right**, with some collector. -/
theorem fits_of_meets (hs : s.WellFormed L) (hb : ensureBytesFree < 2 ^ L.sizeBits)
    (hty : L.splitHeader header = some ty)
    (hmeets : ∀ G : Collector, G.Works L → s.Meets L G ty ensureBytesFree numElements header)
    (hsizes : L.sequenceSizes (L.bytesOf ty) numElements = some (sequenceSize, sequenceSizeAligned)) :
    s.Fits L sequenceSizeAligned ensureBytesFree := by
  obtain ⟨hsize, hle, hlt⟩ := L.sequenceSizes_spec hsizes
  have hw := L.wordSize_pos
  have hmd : L.sequenceMetaDataSize = 3 * L.wordSize := rfl
  rw [Fits]
  split
  case isTrue hdirect =>
    split
    case isTrue hfree =>
      have hspace : s.makeSpace L (.keeping fun _ _ => none) sequenceSizeAligned ensureBytesFree = some s := by
        rw [makeSpace, if_pos hdirect, ensure, if_pos hfree]
      have hroom := ((hmeets _ Collector.dying_works).room hty hsizes hspace).2 hdirect
      have := hroom.oldGen
      have := hs.size_lt
      omega
    case isFalse hnot =>
      by_contra hno
      obtain ⟨hwrap, hrefused⟩ := not_or.mp hno
      obtain ⟨G, hG, s₂, hs₂, hroom⟩ := performGC_breaks hs (by omega) hlt hb (by omega) hrefused
      have hspace : s.makeSpace L G sequenceSizeAligned ensureBytesFree = some s₂ := by
        rw [makeSpace, if_pos hdirect, ensure, if_neg hnot, hs₂]
      exact hroom (((hmeets G hG).room hty hsizes hspace).2 hdirect)
  case isFalse hdirect =>
    have hspace : ∃ G : Collector, G.Works L ∧ ∃ s₂,
        s.makeSpace L G sequenceSizeAligned ensureBytesFree = some s₂ := by
      simp only [makeSpace, if_neg hdirect, ensure]
      split
      case isTrue => exact ⟨_, Collector.dying_works, s, rfl⟩
      case isFalse => exact performGC_returns hs SizeT.add_lt
    obtain ⟨G, hG, s₂, hs₂⟩ := hspace
    exact ((hmeets G hG).room hty hsizes hs₂).1

/-- Sequences of words of 64 bits. -/
def layout64 : Layout where
  alignment := 8
  frameInfos := []
  maxFrameSize := 0
  objectTypes := [⟨.sequence, false, 8, 0⟩]
  returnAddressToFrameIndex := id
  wordSize := 8
  align48 := eight_allowed
  native := eight_allowed

/-- Some of it is in use, and the nursery has 7 megabytes. -/
def space64 : Space where
  canMinor := true
  frontier := 0x100901000
  heap := { nursery := 0x100900000, oldGenSize := 0x10000, size := 0x1000000, start := 0x100000000 }
  limitPlusSlop := 0x101000000
  mem := fun _ => 0
  oldGenSequenceSize := 0x100000

theorem space64_wellFormed : space64.WellFormed layout64 where
  nursery_le := by decide
  frontier_le := by decide
  limit := rfl
  limit_lt := by decide
  room := by decide

end Space

end MLton.Runtime
