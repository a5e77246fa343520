import MLton.Machinery.SizeT
import MLton.Runtime.ObjectLayout

/-!
# Runtime/CollectSizes — the sizes that `performGC` computes

Whether there is room in the heap is decided with sums of sizes that may wrap around: `hasHeapBytesFree` adds
what is requested to what is in use, `performGC` adds up the two requests to see if there must be a major
collection, and `setGCStateCurrentHeap` subtracts from the size of the heap to lay out the nursery.  The two
collections themselves are parameters (`Collector`), with what they are known to leave behind
(`Collector.Works`).  The mutator calls with room on its stack, so that no larger stack is needed.

`performGC` makes room if what is in use and the requests do not wrap around together, or if nothing is
requested for the old generation (`performGC_room`); otherwise it may say that there is room where there is
none (`performGC_breaks`).
-/

namespace MLton.Runtime

/-- `struct GC_state`, as far as the room in the heap is concerned. -/
structure Space where
  canMinor : Bool
  frontier : ℕ
  heap : Heap
  limitPlusSlop : ℕ
  mem : Memory
  oldGenSequenceSize : ℕ

/-- `minorGC`, `majorGC`, which may die, and whether the nursery is to be a generational one, given that it has
some size: the mutator marks cards and the statistics speak for it. -/
structure Collector where
  minorGC : Space → Space
  majorGC : Space → ℕ → Option Space
  generational : Space → ℕ → Bool

namespace Layout

variable (L : Layout)

/-- The bits of a `size_t`. -/
def sizeBits : ℕ := 8 * L.wordSize

/-- `alignFrontier`, in sizes that wrap around. -/
def alignFrontierSize (p : ℕ) : ℕ :=
  SizeT.sub L.sizeBits (SizeT.align L.sizeBits (SizeT.add L.sizeBits p L.normalMetaDataSize) L.alignment)
    L.normalMetaDataSize

end Layout

namespace Space

variable (L : Layout) (G : Collector) (s : Space)

/-- How many times the nursery is counted: a minor collection copies it. -/
def times : ℕ := if s.canMinor then 2 else 1

/-- `hasHeapBytesFree`. -/
def hasHeapBytesFree (oldGen nursery : ℕ) : Prop :=
  SizeT.add L.sizeBits (SizeT.add L.sizeBits s.heap.oldGenSize oldGen)
      (SizeT.mul L.sizeBits s.times (SizeT.sub L.sizeBits s.limitPlusSlop s.heap.nursery)) ≤ s.heap.size ∧
    nursery ≤ SizeT.sub L.sizeBits s.limitPlusSlop s.frontier

instance (oldGen nursery : ℕ) : Decidable (s.hasHeapBytesFree L oldGen nursery) :=
  inferInstanceAs (Decidable (_ ∧ _))

/-- The state with a nursery, which is empty. -/
def withNursery (limitPlusSlop nursery : ℕ) (canMinor : Bool) : Space :=
  { s with
    canMinor := canMinor
    frontier := nursery
    heap := { s.heap with nursery := nursery }
    limitPlusSlop := limitPlusSlop }

/-- `setGCStateCurrentHeap`.  It may die. -/
def setGCStateCurrentHeap (oldGenBytesRequested nurseryBytesRequested : ℕ) : Option Space :=
  let limitPlusSlop := SizeT.add L.sizeBits s.heap.start s.heap.size
  let nurserySize := SizeT.sub L.sizeBits s.heap.size (SizeT.add L.sizeBits s.heap.oldGenSize oldGenBytesRequested)
  let nursery := SizeT.sub L.sizeBits limitPlusSlop nurserySize
  let genNursery := L.alignFrontierSize (SizeT.sub L.sizeBits limitPlusSlop (nurserySize / 2))
  let genNurserySize := SizeT.sub L.sizeBits limitPlusSlop genNursery
  if nurseryBytesRequested ≤ genNurserySize ∧ G.generational s nurserySize = true then
    some (s.withNursery limitPlusSlop genNursery true)
  else if nurseryBytesRequested ≤ nurserySize then some (s.withNursery limitPlusSlop nursery false)
  else none

/-- The collection of the whole heap, if what is requested does not fit into it. -/
def majorIfNeeded (totalBytesRequested : ℕ) : Option Space :=
  if SizeT.sub L.sizeBits s.heap.size s.heap.oldGenSize < totalBytesRequested then G.majorGC s totalBytesRequested
  else some s

/-- `performGC`, which may resize the heap. -/
def performGC (oldGenBytesRequested nurseryBytesRequested : ℕ) : Option Space :=
  ((G.minorGC s).majorIfNeeded L G (SizeT.add L.sizeBits oldGenBytesRequested nurseryBytesRequested)).bind fun s =>
    s.setGCStateCurrentHeap L G oldGenBytesRequested nurseryBytesRequested

/-! ## What holds of the sizes -/

/-- **The parts of the heap are in order**, and if the nursery is copied there is room for it. -/
structure WellFormed : Prop where
  nursery_le : s.heap.nursery ≤ s.frontier
  frontier_le : s.frontier ≤ s.limitPlusSlop
  limit : s.limitPlusSlop = s.heap.limit
  limit_lt : s.heap.limit < 2 ^ L.sizeBits
  room : s.heap.oldGenSize + s.times * (s.limitPlusSlop - s.heap.nursery) ≤ s.heap.size

/-- **There is room**, in sizes that do not wrap around. -/
structure Room (oldGen nursery : ℕ) : Prop where
  oldGen : s.heap.oldGenSize + oldGen + s.times * (s.limitPlusSlop - s.heap.nursery) ≤ s.heap.size
  nursery : s.frontier + nursery ≤ s.limitPlusSlop

/-- The bytes in use. -/
def used : ℕ := s.heap.oldGenSize + (s.frontier - s.heap.nursery)

/-- **The request is found too large for the nursery**, although what is added up for it seems to fit into the
heap as it is. -/
def Refused (oldGen nursery : ℕ) : Prop :=
  SizeT.add L.sizeBits oldGen nursery ≤ s.heap.size - s.used ∧ oldGen ≤ s.heap.size - s.used ∧
    s.heap.size - s.used < oldGen + nursery

instance (oldGen nursery : ℕ) : Decidable (s.Refused L oldGen nursery) := inferInstanceAs (Decidable (_ ∧ _ ∧ _))

end Space

/-- **What the collections leave behind.**  A minor collection adds to the old generation what survives of the
nursery, and that is all of it if it cannot copy; a major one dies or leaves a heap with no more in use and,
as it asserts, with the bytes that are requested, as a `size_t`.  A nursery is generational only if it is large
enough to be worth it, and if the card map fits behind the heap. -/
structure Collector.Works (L : Layout) (G : Collector) : Prop where
  minor : ∀ s : Space, s.WellFormed L → ∃ o ≤ s.frontier - s.heap.nursery,
    (s.canMinor = false → o = s.frontier - s.heap.nursery) ∧
      (G.minorGC s).heap = { s.heap with oldGenSize := s.heap.oldGenSize + o }
  major : ∀ (s : Space) (bytesRequested : ℕ) (s' : Space), G.majorGC s bytesRequested = some s' →
    s'.heap.oldGenSize ≤ s.heap.oldGenSize ∧ s'.heap.oldGenSize ≤ s'.heap.size ∧
      s'.heap.limit < 2 ^ L.sizeBits ∧
        SizeT.add L.sizeBits s'.heap.oldGenSize bytesRequested ≤ s'.heap.size
  worth : ∀ (s : Space) (nurserySize : ℕ), G.generational s nurserySize = true →
    s.heap.limit + L.normalMetaDataSize + L.alignment ≤ 2 ^ L.sizeBits ∧ L.alignment ≤ nurserySize / 2

namespace Space

variable {L : Layout} {G : Collector} {s s' : Space} {a b : ℕ}

theorem times_pos : 1 ≤ s.times := by
  rw [times]
  split <;> omega

namespace WellFormed

theorem used_le (h : s.WellFormed L) : s.used ≤ s.heap.size := by
  have hone := Nat.mul_le_mul_right (s.limitPlusSlop - s.heap.nursery) s.times_pos
  have := h.room
  have := h.frontier_le
  unfold used
  omega

theorem size_lt (h : s.WellFormed L) : s.heap.size < 2 ^ L.sizeBits := by
  have := h.limit_lt
  unfold Heap.limit at this
  omega

/-- **The check is exact** unless the sum that it forms wraps around. -/
theorem hasHeapBytesFree_iff (h : s.WellFormed L)
    (hlt : s.heap.oldGenSize + a + s.times * (s.limitPlusSlop - s.heap.nursery) < 2 ^ L.sizeBits) :
    s.hasHeapBytesFree L a b ↔ s.Room a b := by
  have hlimit : s.limitPlusSlop < 2 ^ L.sizeBits := h.limit ▸ h.limit_lt
  have hn : s.heap.nursery ≤ s.limitPlusSlop := le_trans h.nursery_le h.frontier_le
  have hf := h.frontier_le
  have hsum : SizeT.add L.sizeBits s.heap.oldGenSize a = s.heap.oldGenSize + a := SizeT.add_eq (by omega)
  rw [hasHeapBytesFree, SizeT.sub_eq hn hlimit, SizeT.sub_eq hf hlimit, SizeT.mul_eq (by omega), hsum,
    SizeT.add_eq hlt]
  exact ⟨fun ⟨h₁, h₂⟩ => ⟨h₁, by omega⟩, fun ⟨h₁, h₂⟩ => ⟨h₁, by omega⟩⟩

end WellFormed

/-! ## Laying out the nursery -/

/-- **A generational nursery is at most half** of what is left. -/
theorem alignFrontierSize_le {p N : ℕ} (hN : N ≤ p) (hp : p + L.normalMetaDataSize + L.alignment ≤ 2 ^ L.sizeBits)
    (hle : L.alignment ≤ N / 2) : p - N / 2 ≤ L.alignFrontierSize (SizeT.sub L.sizeBits p (N / 2)) ∧
      L.alignFrontierSize (SizeT.sub L.sizeBits p (N / 2)) ≤ p := by
  have hpos := L.alignment_pos
  have hsub : SizeT.sub L.sizeBits p (N / 2) = p - N / 2 := SizeT.sub_eq (by omega) (by omega)
  have hadd : SizeT.add L.sizeBits (p - N / 2) L.normalMetaDataSize = p - N / 2 + L.normalMetaDataSize :=
    SizeT.add_eq (by omega)
  obtain ⟨hge, hle', -⟩ := SizeT.align_spec (w := L.sizeBits) (a := p - N / 2 + L.normalMetaDataSize) hpos
    (by omega)
  rw [Layout.alignFrontierSize, hsub, hadd, SizeT.sub_eq (by omega) (by omega)]
  omega

/-- **The nursery is laid out in what is left of the heap**, if the bytes for the old generation fit. -/
theorem setGCStateCurrentHeap_room (hG : G.Works L) (hlimit : s.heap.limit < 2 ^ L.sizeBits)
    (hle : s.heap.oldGenSize + a ≤ s.heap.size) (h : s.setGCStateCurrentHeap L G a b = some s') :
    s'.WellFormed L ∧ s'.Room a b := by
  have hend : SizeT.add L.sizeBits s.heap.start s.heap.size = s.heap.limit := SizeT.add_eq hlimit
  have hsizele : s.heap.size ≤ s.heap.limit := Nat.le_add_left ..
  have hsum : SizeT.add L.sizeBits s.heap.oldGenSize a = s.heap.oldGenSize + a := SizeT.add_eq (by omega)
  have hsize : SizeT.sub L.sizeBits s.heap.size (SizeT.add L.sizeBits s.heap.oldGenSize a) =
      s.heap.size - (s.heap.oldGenSize + a) := by rw [hsum, SizeT.sub_eq hle (by omega)]
  rw [setGCStateCurrentHeap, hend, hsize] at h
  generalize hN : s.heap.size - (s.heap.oldGenSize + a) = N at h
  split at h
  case isTrue hgen =>
    obtain ⟨hb, hgen⟩ := hgen
    cases Option.some.inj h
    obtain ⟨hmaps, hworth⟩ := hG.worth s N hgen
    obtain ⟨hge, hle'⟩ := alignFrontierSize_le (by omega) hmaps hworth
    generalize L.alignFrontierSize (SizeT.sub L.sizeBits s.heap.limit (N / 2)) = nursery at hb hge hle'
    rw [SizeT.sub_eq hle' hlimit] at hb
    exact ⟨⟨le_rfl, hle', rfl, hlimit, by simp only [withNursery, times, if_true]; omega⟩,
      by simp only [withNursery, times, if_true]; omega, by simp only [withNursery]; omega⟩
  case isFalse =>
    split at h
    case isFalse => cases h
    case isTrue hb =>
      cases Option.some.inj h
      have hsub : SizeT.sub L.sizeBits s.heap.limit N = s.heap.limit - N := SizeT.sub_eq (by omega) hlimit
      have hle' : s.heap.limit - N ≤ s.heap.limit := Nat.sub_le ..
      rw [hsub]
      exact ⟨⟨le_rfl, hle', rfl, hlimit, by simp only [withNursery, times, Bool.false_eq_true, if_false]; omega⟩,
        by simp only [withNursery, times, Bool.false_eq_true, if_false]; omega, by simp only [withNursery]; omega⟩

/-! ## Collections that make room -/

/-- **No collection makes more than the heap has room for.** -/
theorem Room.lt (h : s'.WellFormed L) (hroom : s'.Room a b) : a + b < 2 ^ L.sizeBits := by
  have hone := Nat.mul_le_mul_right (s'.limitPlusSlop - s'.heap.nursery) s'.times_pos
  have := hroom.oldGen
  have := hroom.nursery
  have := h.nursery_le
  have := h.size_lt
  omega

/-- **`performGC` makes room** if it returns, when what is in use and the requests do not wrap around together,
or when nothing is requested for the old generation: then the nursery is measured. -/
theorem performGC_room (hG : G.Works L) (hs : s.WellFormed L)
    (hsafe : s.used + a + b < 2 ^ L.sizeBits ∨ a = 0) (h : s.performGC L G a b = some s') :
    s'.WellFormed L ∧ s'.Room a b := by
  obtain ⟨o, ho, -, hheap⟩ := hG.minor s hs
  have hused : (G.minorGC s).heap.oldGenSize ≤ s.used := by
    rw [hheap]
    exact Nat.add_le_add_left ho _
  have hsize : (G.minorGC s).heap.size = s.heap.size := by rw [hheap]
  have hlimit : (G.minorGC s).heap.limit < 2 ^ L.sizeBits := by rw [hheap]; exact hs.limit_lt
  have := hs.used_le
  have := hs.size_lt
  obtain ⟨s₂, hs₂, h⟩ := Option.bind_eq_some_iff.mp h
  have htotal : a ≠ 0 → SizeT.add L.sizeBits a b = a + b := fun ha => SizeT.add_eq (by omega)
  rw [majorIfNeeded] at hs₂
  split at hs₂
  case isTrue =>
    obtain ⟨hold, hle, hlimit₂, hadd⟩ := hG.major _ _ _ hs₂
    refine setGCStateCurrentHeap_room hG hlimit₂ ?_ h
    obtain rfl | ha := Nat.eq_zero_or_pos a
    · exact hle
    · rw [htotal (by omega), SizeT.add_eq (by omega)] at hadd
      omega
  case isFalse hnot =>
    cases Option.some.inj hs₂
    refine setGCStateCurrentHeap_room hG hlimit ?_ h
    obtain rfl | ha := Nat.eq_zero_or_pos a
    · omega
    · rw [htotal (by omega), SizeT.sub_eq (by omega) (by omega)] at hnot
      omega

/-- **A refused request dies.**  The heap stays as it is, and its nursery is too small. -/
theorem performGC_of_refused (hG : G.Works L) (hs : s.WellFormed L) (h : s.Refused L a b) :
    s.performGC L G a b = none := by
  obtain ⟨htotal, ha, hab⟩ := h
  obtain ⟨o, ho, -, hheap⟩ := hG.minor s hs
  have hold : (G.minorGC s).heap.oldGenSize ≤ s.used := by
    rw [hheap]
    exact Nat.add_le_add_left ho _
  have hsize : (G.minorGC s).heap.size = s.heap.size := by rw [hheap]
  have hlimit : (G.minorGC s).heap.limit < 2 ^ L.sizeBits := by rw [hheap]; exact hs.limit_lt
  have hused := hs.used_le
  have hlt := hs.size_lt
  have hwrap : 2 ^ L.sizeBits ≤ a + b := by
    by_contra hno
    rw [SizeT.add_eq (by omega)] at htotal
    omega
  have hstay : ¬ SizeT.sub L.sizeBits (G.minorGC s).heap.size (G.minorGC s).heap.oldGenSize <
      SizeT.add L.sizeBits a b := by
    rw [SizeT.sub_eq (by omega) (by omega)]
    omega
  rw [performGC, majorIfNeeded, if_neg hstay]
  refine Option.eq_none_iff_forall_ne_some.mpr fun s' hs' => ?_
  obtain ⟨hwf, hroom⟩ := setGCStateCurrentHeap_room hG hlimit (by omega) hs'
  exact absurd (Room.lt hwf hroom) (by omega)

end Space

namespace Collector

/-- A collector that finds everything in use and does not use generational nurseries. -/
def keeping (majorGC : Space → ℕ → Option Space) : Collector where
  minorGC s := { s with heap := { s.heap with oldGenSize := s.used } }
  majorGC := majorGC
  generational _ _ := false

/-- The heap is made as small as what is in use, if that is as much as is asked for. -/
def tightGC (L : Layout) (s : Space) (bytesRequested : ℕ) : Option Space :=
  if s.heap.start + s.heap.oldGenSize < 2 ^ L.sizeBits ∧
      SizeT.add L.sizeBits s.heap.oldGenSize bytesRequested ≤ s.heap.oldGenSize then
    some { s with heap := { s.heap with size := s.heap.oldGenSize } }
  else none

/-- Nothing is in use any more, and the heap has the bytes that are asked for. -/
def emptiedGC (L : Layout) (s : Space) (bytesRequested : ℕ) : Option Space :=
  if bytesRequested < 2 ^ L.sizeBits then
    some { s with heap := { s.heap with oldGenSize := 0, size := bytesRequested, start := 0 } }
  else none

variable {L : Layout}

theorem keeping_works {majorGC : Space → ℕ → Option Space}
    (h : ∀ (s : Space) (bytesRequested : ℕ) (s' : Space), majorGC s bytesRequested = some s' →
      s'.heap.oldGenSize ≤ s.heap.oldGenSize ∧ s'.heap.oldGenSize ≤ s'.heap.size ∧
        s'.heap.limit < 2 ^ L.sizeBits ∧
          SizeT.add L.sizeBits s'.heap.oldGenSize bytesRequested ≤ s'.heap.size) :
    (keeping majorGC).Works L where
  minor _ _ := ⟨_, le_rfl, fun _ => rfl, rfl⟩
  major := h
  worth _ _ := nofun

/-- A heap that cannot be collected. -/
theorem dying_works : (keeping fun _ _ => none).Works L := keeping_works fun _ _ _ h => nomatch h

theorem tight_works : (keeping (tightGC L)).Works L := by
  refine keeping_works fun s bytesRequested s' h => ?_
  obtain ⟨⟨hlimit, hadd⟩, h⟩ := Option.ite_none_right_eq_some.mp h
  cases Option.some.inj h
  exact ⟨le_rfl, le_rfl, hlimit, hadd⟩

theorem emptied_works : (keeping (emptiedGC L)).Works L := by
  refine keeping_works fun s bytesRequested s' h => ?_
  obtain ⟨hlt, h⟩ := Option.ite_none_right_eq_some.mp h
  cases Option.some.inj h
  refine ⟨Nat.zero_le _, Nat.zero_le _, ?_, ?_⟩
  · rw [Heap.limit]
    simpa using hlt
  · rw [SizeT.add_eq (by simpa using hlt)]
    simp

end Collector

namespace Space

variable {L : Layout} {s : Space} {a b : ℕ}

/-- **What is laid out without a generational nursery.** -/
theorem setGCStateCurrentHeap_keeping (majorGC : Space → ℕ → Option Space)
    (h : b ≤ SizeT.sub L.sizeBits s.heap.size (SizeT.add L.sizeBits s.heap.oldGenSize a)) :
    ∃ s', s.setGCStateCurrentHeap L (.keeping majorGC) a b = some s' ∧
      s'.heap.oldGenSize = s.heap.oldGenSize ∧ s'.heap.size = s.heap.size := by
  rw [setGCStateCurrentHeap, if_neg (by simp [Collector.keeping]), if_pos h]
  exact ⟨_, rfl, rfl, rfl⟩

/-- A request that `add` wraps around once. -/
theorem add_wrapped {w : ℕ} (ha : a < 2 ^ w) (hb : b < 2 ^ w) (h : 2 ^ w ≤ a + b) :
    SizeT.add w a b = a + b - 2 ^ w := by
  rw [SizeT.add, Nat.mod_eq_sub_mod h, Nat.mod_eq_of_lt (by omega)]

/-- The size of a nursery that is not there. -/
theorem sub_add_wrapped {w x y z : ℕ} (hy : y ≤ x) (hx : x < 2 ^ w) (hz : z < 2 ^ w) (h : x < y + z) :
    SizeT.sub w x (SizeT.add w y z) = x + 2 ^ w - (y + z) := by
  rcases Nat.lt_or_ge (y + z) (2 ^ w) with hlt | hge
  · rw [SizeT.add_eq hlt, SizeT.sub, Nat.mod_eq_of_lt (by omega)]
  · rw [add_wrapped (by omega) hz hge, SizeT.sub_eq (by omega) hx]
    omega

/-- **The heap stays as it is**, with everything in use. -/
theorem performGC_keeping (majorGC : Space → ℕ → Option Space) (hs : s.WellFormed L)
    (hfits : SizeT.add L.sizeBits a b ≤ s.heap.size - s.used)
    (hb : b ≤ SizeT.sub L.sizeBits s.heap.size (SizeT.add L.sizeBits s.used a)) :
    ∃ s', s.performGC L (.keeping majorGC) a b = some s' ∧ s'.heap.oldGenSize = s.used ∧
      s'.heap.size = s.heap.size := by
  have hstay : ¬ SizeT.sub L.sizeBits s.heap.size s.used < SizeT.add L.sizeBits a b := by
    rw [SizeT.sub_eq hs.used_le hs.size_lt]
    omega
  rw [performGC, majorIfNeeded, if_neg (by exact hstay)]
  exact setGCStateCurrentHeap_keeping (s := { s with heap := { s.heap with oldGenSize := s.used } }) majorGC hb

/-- The state after a minor collection that finds everything in use. -/
def kept (s : Space) : Space := { s with heap := { s.heap with oldGenSize := s.used } }

/-- **There is a major collection**, and what it leaves is laid out. -/
theorem performGC_major (majorGC : Space → ℕ → Option Space) {s₂ : Space} (hs : s.WellFormed L)
    (hmajor : s.heap.size - s.used < SizeT.add L.sizeBits a b)
    (hs₂ : majorGC s.kept (SizeT.add L.sizeBits a b) = some s₂)
    (hb : b ≤ SizeT.sub L.sizeBits s₂.heap.size (SizeT.add L.sizeBits s₂.heap.oldGenSize a)) :
    ∃ s', s.performGC L (.keeping majorGC) a b = some s' ∧ s'.heap.oldGenSize = s₂.heap.oldGenSize ∧
      s'.heap.size = s₂.heap.size := by
  have hgo : SizeT.sub L.sizeBits s.heap.size s.used < SizeT.add L.sizeBits a b := by
    rwa [SizeT.sub_eq hs.used_le hs.size_lt]
  rw [performGC, majorIfNeeded, if_pos (by exact hgo)]
  obtain ⟨s', hs', hold, hsize⟩ := setGCStateCurrentHeap_keeping (L := L) majorGC hb
  exact ⟨s', Option.bind_eq_some_iff.mpr ⟨s₂, hs₂, hs'⟩, hold, hsize⟩

/-- With a heap that is as small as what is in use, a nursery is laid out for any request that does not wrap
around by itself. -/
theorem performGC_tight (hs : s.WellFormed L) (ha : 0 < a) (hsum : a + b < 2 ^ L.sizeBits)
    (hwrap : 2 ^ L.sizeBits ≤ s.used + a + b) :
    ∃ s', s.performGC L (.keeping (Collector.tightGC L)) a b = some s' ∧ s'.heap.oldGenSize = s.used ∧
      s'.heap.size = s.used := by
  have hused := hs.used_le
  have hlt := hs.size_lt
  have hlimit := hs.limit_lt
  unfold Heap.limit at hlimit
  have htotal : SizeT.add L.sizeBits a b = a + b := SizeT.add_eq hsum
  have htight : SizeT.add L.sizeBits s.used (SizeT.add L.sizeBits a b) ≤ s.used := by
    rw [htotal, add_wrapped (by omega) hsum (by omega)]
    omega
  refine performGC_major (Collector.tightGC L) hs (by omega)
    (if_pos ⟨show s.heap.start + s.used < 2 ^ L.sizeBits by omega, htight⟩) ?_
  change b ≤ SizeT.sub L.sizeBits s.used (SizeT.add L.sizeBits s.used a)
  rw [sub_add_wrapped le_rfl (by omega) (by omega) (by omega)]
  omega

/-- With nothing in use, a nursery is laid out for any request that does not fit as it is. -/
theorem performGC_emptied (hs : s.WellFormed L) (ha : a < 2 ^ L.sizeBits) (hb : b < 2 ^ L.sizeBits)
    (hmajor : s.heap.size - s.used < SizeT.add L.sizeBits a b) :
    ∃ s', s.performGC L (.keeping (Collector.emptiedGC L)) a b = some s' ∧ s'.heap.oldGenSize = 0 ∧
      s'.heap.size = SizeT.add L.sizeBits a b := by
  have hlt : SizeT.add L.sizeBits a b < 2 ^ L.sizeBits := SizeT.add_lt
  refine performGC_major (Collector.emptiedGC L) hs hmajor (if_pos hlt) ?_
  change b ≤ SizeT.sub L.sizeBits (SizeT.add L.sizeBits a b) (SizeT.add L.sizeBits 0 a)
  have hzero : SizeT.add L.sizeBits 0 a = a := by rw [SizeT.add_eq (by omega), Nat.zero_add]
  rcases Nat.lt_or_ge (a + b) (2 ^ L.sizeBits) with hsum | hsum
  · rw [hzero, SizeT.add_eq hsum, SizeT.sub_eq (by omega) hsum]
    omega
  · have htotal := add_wrapped ha hb hsum
    rw [sub_add_wrapped (Nat.zero_le _) hlt ha (by omega)]
    omega

/-- **Room is claimed that is not there**, unless it is found out: for any other request that wraps around, some
collection returns without room for it. -/
theorem performGC_breaks (hs : s.WellFormed L) (ha : 0 < a) (halt : a < 2 ^ L.sizeBits) (hb : b < 2 ^ L.sizeBits)
    (hwrap : 2 ^ L.sizeBits ≤ s.used + a + b) (hnot : ¬ s.Refused L a b) :
    ∃ G : Collector, G.Works L ∧ ∃ s', s.performGC L G a b = some s' ∧ ¬ s'.Room a b := by
  have hused := hs.used_le
  have hlt := hs.size_lt
  have hnoRoom : ∀ s' : Space, s'.heap.size < s'.heap.oldGenSize + a → ¬ s'.Room a b := fun s' hlt hroom => by
    have := hroom.oldGen
    omega
  rcases Nat.lt_or_ge (a + b) (2 ^ L.sizeBits) with hsum | hsum
  · obtain ⟨s', hs', hold, hsize⟩ := performGC_tight hs ha hsum hwrap
    exact ⟨_, Collector.tight_works, s', hs', hnoRoom s' (by omega)⟩
  · have htotal := add_wrapped halt hb hsum
    rcases Nat.lt_or_ge (s.heap.size - s.used) (SizeT.add L.sizeBits a b) with hmajor | hfits
    · obtain ⟨s', hs', hold, hsize⟩ := performGC_emptied hs halt hb hmajor
      exact ⟨_, Collector.emptied_works, s', hs', hnoRoom s' (by omega)⟩
    · have hlarge : s.heap.size - s.used < a := by
        by_contra hle
        exact hnot ⟨hfits, by omega, by omega⟩
      obtain ⟨s', hs', hold, hsize⟩ := performGC_keeping (L := L) (fun _ _ => none) hs hfits
        (by rw [sub_add_wrapped hused hlt halt (by omega)]; omega)
      exact ⟨_, Collector.dying_works, s', hs', hnoRoom s' (by omega)⟩

/-- **A request for the nursery alone** may be met. -/
theorem performGC_returns (hs : s.WellFormed L) (hb : b < 2 ^ L.sizeBits) :
    ∃ G : Collector, G.Works L ∧ ∃ s', s.performGC L G 0 b = some s' := by
  have hused := hs.used_le
  have hlt := hs.size_lt
  have htotal : SizeT.add L.sizeBits 0 b = b := by rw [SizeT.add_eq (by omega), Nat.zero_add]
  refine ⟨_, Collector.emptied_works, ?_⟩
  rcases Nat.lt_or_ge (s.heap.size - s.used) b with hmajor | hfits
  · obtain ⟨s', hs', -⟩ := performGC_emptied (a := 0) hs (Nat.two_pow_pos _) hb (by rwa [htotal])
    exact ⟨s', hs'⟩
  · obtain ⟨s', hs', -⟩ := performGC_keeping (L := L) (a := 0) (b := b) (Collector.emptiedGC L) hs (by rwa [htotal])
      (by rw [SizeT.add_eq (by omega), Nat.add_zero, SizeT.sub_eq hused hlt]; omega)
    exact ⟨s', hs'⟩

end Space

end MLton.Runtime
