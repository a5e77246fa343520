import MLton.Runtime.HeapCreate
import MLton.Runtime.HeapWalk

/-!
# Runtime/HeapGrow — moving a heap to a larger one

`growHeap` asks the system to remap the heap.  If that is refused it creates a second heap and copies what is in
use, from the end in chunks, and releases the pages of the old heap that it has copied; if that is refused too
it stays where it is, if that is enough, or writes the heap to a file, releases it and reads it back into a new
one.  In the end the pointers are translated.

What the system has released may hold anything (`GrowSystem.lost`), so that a byte which is released before it is
copied is lost.
-/

namespace MLton.Runtime

/-- The system: what it answers while the old heap is mapped, and after it has been released; what is at an
address that is not mapped; and whether files can be written and read. -/
structure GrowSystem where
  held : Allocator
  released : Allocator
  lost : Memory
  writes : Bool
  reads : Bool

/-- What becomes of a heap that is to grow. -/
inductive Grown where
  | died
  | grown (h : MappedHeap) (st : World)

/-- `COPY_CHUNK_SIZE`; a file is written and read in chunks of the same size. -/
def copyChunkSize : ℕ := 0x2000000

namespace GrowSystem

variable (Y : GrowSystem)

/-- `GC_release`. -/
def release (lo n : ℕ) (st : World) : World :=
  { st with mem := fun i => if lo ≤ i ∧ i < lo + n then Y.lost i else st.mem i }

/-- `releaseHeap`. -/
def releaseHeap (h : MappedHeap) (st : World) : MappedHeap × World :=
  if h.start = 0 then (h, st) else (.init, Y.release h.start h.withMapsSize st)

/-- Copy the `n` bytes from `src` in one memory to `dst` in another. -/
def transfer (m m' : Memory) (src dst n : ℕ) : Memory :=
  fun i => if dst ≤ i ∧ i < dst + n then m (src + (i - dst)) else m' i

/-- The loop of `GC_diskBack_write` and of `GC_diskBack_read`: from one memory to another. -/
def inChunks (m : Memory) : ℕ → ℕ → ℕ → ℕ → Memory → Option Memory
  | 0, _, _, _, _ => none
  | k + 1, src, dst, size, m' =>
    if 0 < size then
      let s := Nat.min copyChunkSize size
      inChunks m k (src + s) (dst + s) (size - s) (transfer m m' src dst s)
    else some m'

end GrowSystem

namespace Sys

variable (S : Sys) (addressBits : ℕ) (Y : GrowSystem)

/-- `shrinkHeap`. -/
def shrinkHeap (h : MappedHeap) (keepSize : ℕ) (st : World) : MappedHeap × World :=
  if keepSize = 0 then Y.releaseHeap h st
  else
    let keepSize := SizeT.align S.width keepSize S.pageSize
    if keepSize < h.size then
      let keepWithMapsSize := S.withMaps keepSize
      ({ h with size := keepSize, withMapsSize := keepWithMapsSize },
        Y.release (h.start + keepWithMapsSize) (h.withMapsSize - keepWithMapsSize) st)
    else (h, st)

/-- The loop of `growHeap`: copy the last chunk, and release it. -/
def copyLoop (newStart : ℕ) : ℕ → MappedHeap → ℕ → ℕ → ℕ → World → Option World
  | 0, _, _, _, _, _ => none
  | k + 1, h, src, dst, remaining, st =>
    if remaining < copyChunkSize then
      some (Y.releaseHeap h { st with mem := st.mem.copy h.start newStart remaining }).2
    else
      let remaining := remaining - copyChunkSize
      let src := src - copyChunkSize
      let dst := dst - copyChunkSize
      let r := S.shrinkHeap Y h remaining { st with mem := st.mem.copy src dst copyChunkSize }
      copyLoop newStart k r.1 src dst remaining r.2

/-- The heap goes through a file. -/
def pageHeap (k : ℕ) (h : MappedHeap) (liveSize desiredSize minSize : ℕ) (st : World) : Option Grown :=
  if Y.writes then do
    let data ← GrowSystem.inChunks st.mem k h.start 0 liveSize Y.lost
    let (h, st) := Y.releaseHeap h st
    let (b, h, st) ← S.createHeap addressBits Y.released k h desiredSize minSize st
    if b then
      if Y.reads then do
        let mem ← GrowSystem.inChunks data k 0 h.start liveSize st.mem
        some (.grown { h with oldGenSize := liveSize } { st with mem := mem })
      else some .died
    else some .died
  else some .died

/-- The second heap, if both fit into memory. -/
def secondHeap (k : ℕ) (h : MappedHeap) (desiredSize minSize : ℕ) (st : World) : Option (Bool × MappedHeap × World) :=
  if SizeT.add S.width minSize (S.sizeofCardMapAndCrossMap minSize) ≤
      SizeT.sub S.width (SizeT.max S.width) h.withMapsSize then
    S.createHeap addressBits Y.held k .init desiredSize minSize st
  else some (false, .init, st)

/-- What `remapHeap` has refused. -/
def copyHeap (k : ℕ) (useCurrent mayPageHeap : Bool) (h : MappedHeap) (liveSize desiredSize minSize : ℕ)
    (st : World) : Option Grown := do
  let (h, st) := if useCurrent then (h, st) else S.shrinkHeap Y h liveSize st
  let (b, newHeap, st) ← S.secondHeap addressBits Y k h desiredSize minSize st
  if b then do
    let (h, st) := S.shrinkHeap Y h liveSize st
    let st ← S.copyLoop Y newHeap.start k h (h.start + liveSize) (newHeap.start + liveSize) liveSize st
    some (.grown { newHeap with oldGenSize := liveSize } st)
  else if useCurrent then some (.grown h st)
  else if mayPageHeap then S.pageHeap addressBits Y k h liveSize desiredSize minSize st
  else some .died

/-- `growHeap`, up to the translation. -/
def moveHeap (k : ℕ) (mayPageHeap : Bool) (h : MappedHeap) (desiredSize minSize : ℕ) (st : World) :
    Option Grown := do
  let useCurrent := decide (minSize ≤ h.size)
  let minSize := if useCurrent then SizeT.add S.width h.size S.pageSize else minSize
  let (b, h, st) ← S.remapHeap Y.held k h desiredSize minSize st
  if b then some (.grown h st)
  else S.copyHeap addressBits Y k useCurrent mayPageHeap h h.oldGenSize desiredSize minSize st

/-- `growHeap`. -/
def growHeap (L : Layout) (k : ℕ) (mayPageHeap : Bool) (roots : List ℕ) (h : MappedHeap)
    (desiredSize minSize : ℕ) (st : World) : Option Grown := do
  match ← S.moveHeap addressBits Y k mayPageHeap h desiredSize minSize st with
  | .died => some .died
  | .grown h' st =>
    (L.translateHeap k roots h.start h'.start h'.oldGenSize st.mem).map fun m => .grown h' { st with mem := m }

/-! ## Shrinking a heap -/

variable {S addressBits Y} {h h' : MappedHeap} {st : World}

/-- **The heap has its maps behind it**, in whole pages; a heap that is not mapped has no bytes. -/
structure Mapped (S : Sys) (h : MappedHeap) : Prop where
  dvd : S.pageSize ∣ h.size
  withMapsSize : h.withMapsSize = h.size + S.sizeofCardMapAndCrossMap h.size
  lt : h.withMapsSize < 2 ^ S.width

theorem mapped_init : S.Mapped .init where
  dvd := Nat.dvd_zero _
  withMapsSize := (Nat.le_antisymm (S.fits_zero 0) (Nat.zero_le _)).symm
  lt := Nat.two_pow_pos _

/-- **A heap is shrunk behind what is kept of it.** -/
structure Shrunk (S : Sys) (h : MappedHeap) (keepSize : ℕ) (st : World) (h' : MappedHeap) (st' : World) : Prop where
  mapped : S.Mapped h'
  le_size : keepSize ≤ h'.size
  maps_le : h'.withMapsSize ≤ h.withMapsSize
  start : 0 < keepSize → h'.start = h.start
  start_or : h'.start = h.start ∨ h'.start = 0 ∧ h'.withMapsSize = 0
  kept : ∀ i, i < h.start + keepSize ∨ h.start + h.withMapsSize ≤ i → st'.mem i = st.mem i

theorem shrinkHeap_spec {keepSize : ℕ} (hh : S.Mapped h) (hkeep : keepSize ≤ h.size) :
    S.Shrunk h keepSize st (S.shrinkHeap Y h keepSize st).1 (S.shrinkHeap Y h keepSize st).2 := by
  have hpos := S.pageSize_pos
  have hwm := hh.withMapsSize
  have hlt := hh.lt
  rw [shrinkHeap]
  split
  case isTrue hzero =>
    subst hzero
    rw [GrowSystem.releaseHeap]
    split
    case isTrue => exact ⟨hh, hkeep, le_rfl, fun _ => rfl, .inl rfl, fun _ _ => rfl⟩
    case isFalse =>
      exact ⟨mapped_init, le_rfl, Nat.zero_le _, nofun, .inr ⟨rfl, rfl⟩, fun i hi => if_neg (by omega)⟩
  case isFalse hne =>
    dsimp only
    have hlt' : h.size < 2 ^ S.width := by omega
    have hround : keepSize + (S.pageSize - 1) < 2 ^ S.width := by
      have hwidth : S.pageSize ∣ 2 ^ S.width := Nat.pow_dvd_pow 2 (le_trans (Nat.le_add_right _ 2) S.page_fits)
      have := Nat.le_of_dvd (by omega) (Nat.dvd_sub hwidth hh.dvd)
      omega
    obtain ⟨hge, -, hleast⟩ := SizeT.align_spec (w := S.width) (a := keepSize) hpos hround
    split
    case isFalse => exact ⟨hh, hkeep, le_rfl, fun _ => rfl, .inl rfl, fun _ _ => rfl⟩
    case isTrue hless =>
      have hmono := maps_mono (S := S) hless.le hlt'
      have hmaps : S.withMaps (SizeT.align S.width keepSize S.pageSize) =
          SizeT.align S.width keepSize S.pageSize +
            S.sizeofCardMapAndCrossMap (SizeT.align S.width keepSize S.pageSize) := SizeT.add_eq (by omega)
      exact ⟨⟨SizeT.dvd_align, hmaps, by dsimp only; omega⟩, hge, by dsimp only; omega, fun _ => rfl, .inl rfl,
        fun i hi => if_neg (by omega)⟩

/-! ## Copying a heap in chunks -/

/-- **What has been copied is in the new heap, and what has not is in the old one.**  The old heap was `n` bytes
from `oldStart` when the copy began. -/
structure Copying (S : Sys) (oldStart n newStart liveSize : ℕ) (m₀ : Memory) (h : MappedHeap) (remaining : ℕ)
    (m : Memory) : Prop where
  mapped : S.Mapped h
  le_size : remaining ≤ h.size
  maps_le : h.withMapsSize ≤ n
  start : 0 < remaining → h.start = oldStart
  start_or : h.start = oldStart ∨ h.start = 0 ∧ h.withMapsSize = 0
  left : ∀ i < remaining, m (oldStart + i) = m₀ (oldStart + i)
  done : ∀ i < liveSize, remaining ≤ i → m (newStart + i) = m₀ (oldStart + i)
  others : ∀ i, i < oldStart ∨ oldStart + n ≤ i → i < newStart ∨ newStart + liveSize ≤ i → m i = m₀ i

section Copying

variable {oldStart n newStart liveSize remaining : ℕ} {m₀ : Memory}

/-- The bytes of a chunk. -/
theorem copy_done {m : Memory} {src i c : ℕ} (hleft : ∀ i < remaining, m (oldStart + i) = m₀ (oldStart + i))
    (hdone : ∀ i < liveSize, remaining ≤ i → m (newStart + i) = m₀ (oldStart + i)) (hi : i < liveSize)
    (hsrc : c < remaining → src = oldStart + c) (hle : c ≤ remaining) (hc : c ≤ i) :
    m.copy src (newStart + c) (remaining - c) (newStart + i) = m₀ (oldStart + i) := by
  rcases Nat.lt_or_ge i remaining with hlt | hge
  · rw [Memory.copy, if_pos (by omega), hsrc (by omega),
      show oldStart + c + (newStart + i - (newStart + c)) = oldStart + i by omega]
    exact hleft i hlt
  · rw [Memory.copy, if_neg (by omega)]
    exact hdone i hi hge

/-- The last chunk, which is not a whole one. -/
theorem Copying.last {h : MappedHeap} {st : World} (hinv : S.Copying oldStart n newStart liveSize m₀ h remaining st.mem)
    (hdisjoint : newStart + liveSize ≤ oldStart ∨ oldStart + n ≤ newStart) (hle : remaining ≤ liveSize) :
    let st' := (Y.releaseHeap h { st with mem := st.mem.copy h.start newStart remaining }).2
    (∀ i < liveSize, st'.mem (newStart + i) = m₀ (oldStart + i)) ∧
      ∀ i, i < oldStart ∨ oldStart + n ≤ i → i < newStart ∨ newStart + liveSize ≤ i → st'.mem i = m₀ i := by
  intro st'
  have hmaps := hinv.maps_le
  have hrelease : ∀ i, i < oldStart ∨ oldStart + n ≤ i → st'.mem i = st.mem.copy h.start newStart remaining i := by
    intro i hi
    change (Y.releaseHeap h _).2.mem i = _
    rw [GrowSystem.releaseHeap]
    split
    case isTrue => rfl
    case isFalse hne =>
      refine if_neg fun hin => ?_
      obtain hstart | ⟨hstart, -⟩ := hinv.start_or
      · omega
      · exact hne hstart
  refine ⟨fun i hi => ?_, fun i hold hnew => ?_⟩
  · rw [hrelease _ (by omega)]
    exact copy_done (c := 0) hinv.left hinv.done hi hinv.start (Nat.zero_le _) (Nat.zero_le _)
  · rw [hrelease i hold, Memory.copy, if_neg (by omega)]
    exact hinv.others i hold hnew

/-- **A whole chunk is copied, and then released.** -/
theorem Copying.chunk {h : MappedHeap} {st : World} {c : ℕ}
    (hinv : S.Copying oldStart n newStart liveSize m₀ h remaining st.mem) (hlive : liveSize ≤ n)
    (hdisjoint : newStart + liveSize ≤ oldStart ∨ oldStart + n ≤ newStart) (hle : remaining ≤ liveSize)
    (hlt : c < remaining) :
    let r := S.shrinkHeap Y h c { st with mem := st.mem.copy (oldStart + c) (newStart + c) (remaining - c) }
    S.Copying oldStart n newStart liveSize m₀ r.1 c r.2.mem := by
  intro r
  have hmaps := hinv.maps_le
  have hsize := hinv.le_size
  have hstart := hinv.start (by omega)
  have hs : S.Shrunk h c { st with mem := st.mem.copy (oldStart + c) (newStart + c) (remaining - c) } r.1 r.2 :=
    shrinkHeap_spec hinv.mapped (by omega)
  refine ⟨hs.mapped, hs.le_size, le_trans hs.maps_le hmaps, fun hc => (hs.start hc).trans hstart, ?_,
    fun i hi => ?_, fun i hi hc => ?_, fun i hold hnew => ?_⟩
  · exact hs.start_or.imp_left fun h => h.trans hstart
  · refine (hs.kept _ (.inl (by omega))).trans ?_
    exact (if_neg (by omega)).trans (hinv.left i (by omega))
  · refine (hs.kept _ (by omega)).trans ?_
    exact copy_done hinv.left hinv.done hi (fun _ => rfl) hlt.le hc
  · refine (hs.kept _ (by omega)).trans ?_
    exact (if_neg (by omega)).trans (hinv.others i hold hnew)

/-- **The chunks make up the whole**, by induction on the chunks. -/
theorem copyLoop_spec (hlive : liveSize ≤ n) (hdisjoint : newStart + liveSize ≤ oldStart ∨ oldStart + n ≤ newStart) :
    ∀ {k remaining : ℕ} {h : MappedHeap} {st : World},
      S.Copying oldStart n newStart liveSize m₀ h remaining st.mem → remaining ≤ liveSize →
      remaining < k * copyChunkSize →
      ∃ st', (∀ k' ≥ k, S.copyLoop Y newStart k' h (oldStart + remaining) (newStart + remaining) remaining st =
          some st') ∧ (∀ i < liveSize, st'.mem (newStart + i) = m₀ (oldStart + i)) ∧
        ∀ i, i < oldStart ∨ oldStart + n ≤ i → i < newStart ∨ newStart + liveSize ≤ i → st'.mem i = m₀ i
  | 0, _, _, _, _, _, hk => absurd hk (by omega)
  | k + 1, remaining, h, st, hinv, hle, hk => by
    have hpos : 0 < copyChunkSize := by decide
    rcases Nat.lt_or_ge remaining copyChunkSize with hlt | hge
    · obtain ⟨hin, hout⟩ := Copying.last (Y := Y) hinv hdisjoint hle
      refine ⟨_, fun k' hk' => ?_, hin, hout⟩
      obtain ⟨k', rfl⟩ := Nat.exists_eq_succ_of_ne_zero (by omega : k' ≠ 0)
      rw [copyLoop, if_pos hlt]
    · have hchunk := Copying.chunk (Y := Y) (c := remaining - copyChunkSize) hinv hlive hdisjoint hle (by omega)
      rw [Nat.succ_mul] at hk
      obtain ⟨st', hst', hin, hout⟩ := copyLoop_spec hlive hdisjoint hchunk (by omega) (k := k) (by omega)
      refine ⟨st', fun k' hk' => ?_, hin, hout⟩
      obtain ⟨k', rfl⟩ := Nat.exists_eq_succ_of_ne_zero (by omega : k' ≠ 0)
      rw [copyLoop, if_neg (by omega)]
      dsimp only
      rw [Nat.add_sub_assoc hge, Nat.add_sub_assoc hge]
      have hwhole : remaining - (remaining - copyChunkSize) = copyChunkSize := by omega
      rw [hwhole] at hst'
      exact hst' k' (by omega)

end Copying

/-- **A file is written and read as a whole**, by induction on the chunks. -/
theorem inChunks_spec {m : Memory} : ∀ (src dst size : ℕ) (m' : Memory) {k : ℕ}, size ≤ k * copyChunkSize →
    ∃ m'', (∀ k' > k, GrowSystem.inChunks m k' src dst size m' = some m'') ∧
      (∀ i < size, m'' (dst + i) = m (src + i)) ∧ ∀ i, i < dst ∨ dst + size ≤ i → m'' i = m' i
  | src, dst, 0, m', k, _ => by
    refine ⟨m', fun k' hk' => ?_, nofun, fun _ _ => rfl⟩
    obtain ⟨k', rfl⟩ := Nat.exists_eq_succ_of_ne_zero (by omega : k' ≠ 0)
    rw [GrowSystem.inChunks, if_neg (lt_irrefl 0)]
  | _, _, _ + 1, _, 0, hk => absurd hk (by omega)
  | src, dst, size + 1, m', k + 1, hk => by
    rw [Nat.succ_mul] at hk
    have hmin : Nat.min copyChunkSize (size + 1) ≤ size + 1 := Nat.min_le_right ..
    have hrest : size + 1 - Nat.min copyChunkSize (size + 1) ≤ k * copyChunkSize := by
      rcases Nat.le_total copyChunkSize (size + 1) with h | h
      · rw [show Nat.min copyChunkSize (size + 1) = copyChunkSize from Nat.min_eq_left h]
        omega
      · rw [show Nat.min copyChunkSize (size + 1) = size + 1 from Nat.min_eq_right h]
        omega
    generalize hs : Nat.min copyChunkSize (size + 1) = s at hmin hrest
    obtain ⟨m'', hrun, hin, hout⟩ := inChunks_spec (src + s) (dst + s) (size + 1 - s)
      (GrowSystem.transfer m m' src dst s) hrest
    refine ⟨m'', fun k' hk' => ?_, fun i hi => ?_, fun i hi => ?_⟩
    · obtain ⟨k', rfl⟩ := Nat.exists_eq_succ_of_ne_zero (by omega : k' ≠ 0)
      rw [GrowSystem.inChunks, if_pos (Nat.succ_pos size)]
      dsimp only
      rw [hs]
      exact hrun k' (by omega)
    · rcases Nat.lt_or_ge i s with hlt | hge
      · rw [hout _ (by omega), GrowSystem.transfer, if_pos (by omega), Nat.add_sub_cancel_left]
      · have hi' := hin (i - s) (by omega)
        rwa [show dst + s + (i - s) = dst + i by omega, show src + s + (i - s) = src + i by omega] at hi'
    · rw [hout i (by omega), GrowSystem.transfer, if_neg (by omega)]

/-! ## What the system grants -/

/-- **A range that the system grants**: in whole pages, in front of the end of memory, and where nothing else
is. -/
structure Granted (S : Sys) (elsewhere : ℕ → Prop) (size p : ℕ) : Prop where
  pos : 0 < p
  dvd : S.pageSize ∣ p
  lt : p + size < 2 ^ S.width
  apart : ∀ i, elsewhere i → i < p ∨ p + size ≤ i

/-- **What the system keeps to**, while the heap `h` is mapped and after it has been released. -/
structure Keeps (S : Sys) (Y : GrowSystem) (elsewhere : ℕ → Prop) (h : MappedHeap) : Prop where
  mmap : ∀ c a size p, Y.held.mmapAnon c a size = some p →
    S.Granted elsewhere size p ∧ (p + size ≤ h.start ∨ h.start + h.withMapsSize ≤ p)
  mremap : ∀ c a size size' p, Y.held.mremap c a size size' = some p → S.Granted elsewhere size' p
  released : ∀ c a size p, Y.released.mmapAnon c a size = some p → S.Granted elsewhere size p

variable {A : Allocator}

theorem scan_granted {addressScanDir : Bool} {size newStart calls' : ℕ} : ∀ {steps i calls : ℕ},
    S.scan addressBits A addressScanDir size steps i calls = (some newStart, calls') →
    ∃ c a, A.mmapAnon c a size = some newStart
  | 0, _, _, h => nomatch h
  | steps + 1, i, calls, h => by
    rw [scan] at h
    split at h
    case h_1 p hp =>
      exact ⟨calls, _, hp.trans (Prod.mk.inj h).1⟩
    case h_2 => exact scan_granted h

/-- **A heap that is created is where the system has granted it.** -/
theorem createLoop_granted {h h' : MappedHeap} {st' : World} : ∀ {k : ℕ} {x : Search} {st : World},
    S.createLoop addressBits A h k x st = some (true, h', st') →
    ∃ c a, A.mmapAnon c a h'.withMapsSize = some h'.start
  | 0, _, _, hr => nomatch hr
  | k + 1, x, st, hr => by
    rw [createLoop] at hr
    split at hr
    case isFalse => cases hr
    case isTrue =>
      split at hr
      case h_1 newStart calls hscan =>
        cases Option.some.inj hr
        exact scan_granted hscan
      case h_2 => exact createLoop_granted hr

/-! ## The request -/

/-- **What `resizeHeap` asks for**: sizes in whole pages, of which the desired one is larger than the heap and
fits into memory with its maps and a page more. -/
structure Asks (S : Sys) (h : MappedHeap) (desiredSize minSize : ℕ) : Prop where
  mapped : S.Mapped h
  pos : 0 < h.start
  live_le : h.oldGenSize ≤ h.size
  dvd_desired : S.pageSize ∣ desiredSize
  dvd_min : S.pageSize ∣ minSize
  lt_desired : h.size < desiredSize
  min_le : minSize ≤ desiredSize
  fits : desiredSize + S.sizeofCardMapAndCrossMap desiredSize < 2 ^ S.width
  page : desiredSize + S.pageSize < 2 ^ S.width

/-- The size that is demanded of a new heap. -/
def demandedSize (S : Sys) (h : MappedHeap) (minSize : ℕ) : ℕ :=
  if minSize ≤ h.size then h.size + S.pageSize else minSize

namespace Asks

variable {desiredSize minSize : ℕ}

theorem demanded (q : S.Asks h desiredSize minSize) : S.pageSize ∣ S.demandedSize h minSize ∧
    h.size < S.demandedSize h minSize ∧ minSize ≤ S.demandedSize h minSize ∧
      S.demandedSize h minSize ≤ desiredSize ∧ S.pageSize ≤ S.demandedSize h minSize := by
  have hpos := S.pageSize_pos
  have hlt := q.lt_desired
  have hgap := Nat.le_of_dvd (by omega) (Nat.dvd_sub q.dvd_desired q.mapped.dvd)
  rw [demandedSize]
  split
  case isTrue hle => exact ⟨Nat.dvd_add q.mapped.dvd dvd_rfl, by omega, by omega, by omega, by omega⟩
  case isFalse hgt => exact ⟨q.dvd_min, by omega, le_rfl, q.min_le, Nat.le_of_dvd (by omega) q.dvd_min⟩

/-- The maps of a size that is asked for fit behind it. -/
theorem withMaps_eq (q : S.Asks h desiredSize minSize) (size : ℕ) (hle : size ≤ desiredSize) :
    S.withMaps size = size + S.sizeofCardMapAndCrossMap size ∧ S.withMaps size < 2 ^ S.width := by
  have hpage := q.page
  have hfits := q.fits
  have hmono := maps_mono (S := S) hle (by omega)
  have heq : S.withMaps size = size + S.sizeofCardMapAndCrossMap size := SizeT.add_eq (by omega)
  exact ⟨heq, by omega⟩

/-- **A size in whole pages is rounded up to itself.** -/
theorem align_eq (q : S.Asks h desiredSize minSize) {size : ℕ} (hdvd : S.pageSize ∣ size) (hle : size ≤ desiredSize) :
    SizeT.align S.width size S.pageSize = size := by
  have hpage := q.page
  exact SizeT.align_of_dvd S.pageSize_pos (by omega) hdvd

end Asks

/-! ## What a new heap has -/

/-- **Nothing is lost**: the heap is one of at least the least size, with the bytes that are in use at the same
offsets, and what is elsewhere is as before. -/
structure Kept (S : Sys) (elsewhere : ℕ → Prop) (h : MappedHeap) (desiredSize minSize : ℕ) (m : Memory)
    (h' : MappedHeap) (m' : Memory) : Prop where
  size_ge : minSize ≤ h'.size
  size_le : h'.size ≤ desiredSize
  mapped : S.Mapped h'
  oldGenSize : h'.oldGenSize = h.oldGenSize
  granted : S.Granted elsewhere h'.withMapsSize h'.start
  bytes : ∀ i < h.oldGenSize, m' (h'.start + i) = m (h.start + i)
  others : ∀ i, elsewhere i → m' i = m i

section Kept

variable {elsewhere : ℕ → Prop} {desiredSize minSize : ℕ} {kept : MappedHeap}

/-- The bytes in use, wherever the heap is by now. -/
structure Keeping (elsewhere : ℕ → Prop) (h : MappedHeap) (m : Memory) (h' : MappedHeap) (m' : Memory) : Prop where
  live_le : h.oldGenSize ≤ h'.withMapsSize
  bytes : ∀ i < h.oldGenSize, m' (h'.start + i) = m (h.start + i)
  others : ∀ i, elsewhere i → m' i = m i

/-- **What is remapped takes its bytes with it**, by induction on the search: each new size is at least the one that
is demanded, so that nothing in use is cut off. -/
theorem remapLoop_keeps (q : S.Asks h desiredSize minSize) (hY : S.Keeps Y elsewhere kept) {m : Memory} {b : Bool}
    {h' : MappedHeap} {st' : World} : ∀ {k : ℕ} {x : Search} {result : Bool} {h₁ : MappedHeap} {st : World},
    S.Ok (S.demandedSize h minSize) desiredSize x → Keeping elsewhere h m h₁ st.mem →
    (result = true → S.Granted elsewhere h₁.withMapsSize h₁.start) →
    S.remapLoop Y.held k x result h₁ st = some (b, h', st') →
    Keeping elsewhere h m h' st'.mem ∧ (b = true → S.Granted elsewhere h'.withMapsSize h'.start)
  | 0, _, _, _, _, _, _, _, hr => nomatch hr
  | k + 1, x, result, h₁, st, hx, hkeep, hgranted, hr => by
    obtain ⟨-, hlarge, -, -, hpage⟩ := q.demanded
    rw [remapLoop] at hr
    split at hr
    case isFalse =>
      cases Option.some.inj hr
      exact ⟨hkeep, hgranted⟩
    case isTrue hle =>
      obtain ⟨-, hlow, hhigh⟩ := hx.new hle
      have hlowge := hx.low_ge
      have hhighle := hx.high_le
      split at hr
      case h_1 newStart hnew =>
        have hgrant := hY.mremap _ _ _ _ _ hnew
        obtain ⟨heq, -⟩ := q.withMaps_eq x.newSize (by omega)
        have hsize : h.oldGenSize ≤ S.withMaps x.newSize := by
          have := q.live_le
          omega
        have hmin : h.oldGenSize ≤ Nat.min h₁.withMapsSize (S.withMaps x.newSize) := Nat.le_min.mpr ⟨hkeep.live_le, hsize⟩
        have hminle : Nat.min h₁.withMapsSize (S.withMaps x.newSize) ≤ S.withMaps x.newSize := Nat.min_le_right ..
        refine remapLoop_keeps q hY (hx.goOn q.page hle).1 ⟨hsize, fun i hi => ?_, fun i hi => ?_⟩ (fun _ => hgrant) hr
        · dsimp only
          rw [Memory.copy, if_pos (by omega), Nat.add_sub_cancel_left]
          exact hkeep.bytes i hi
        · have := hgrant.apart i hi
          dsimp only
          rw [Memory.copy, if_neg (by omega)]
          exact hkeep.others i hi
      case h_2 =>
        have hkeep : Keeping elsewhere h m h₁ { st with calls := st.calls + 1 }.mem := hkeep
        exact remapLoop_keeps q hY (hx.backOff hpage q.page.le hle).1 hkeep hgranted hr

/-- A heap that the search has made is mapped with its maps. -/
theorem Made.mapped {h₁ h' : MappedHeap} {low : ℕ} (q : S.Asks h desiredSize minSize)
    (hmade : S.Made low desiredSize h₁ h') : S.Mapped h' := by
  obtain ⟨heq, hlt⟩ := q.withMaps_eq h'.size hmade.le
  exact ⟨hmade.dvd, hmade.withMapsSize.trans heq, hmade.withMapsSize ▸ hlt⟩

/-- **Remapping loses nothing**, and when it is refused all is as before. -/
theorem remapHeap_keeps (q : S.Asks h desiredSize minSize) (hY : S.Keeps Y elsewhere kept) (st : World) :
    ∃ b h' st', Returns (fun k => S.remapHeap Y.held k h desiredSize (S.demandedSize h minSize) st) (b, h', st') ∧
      (b = true → S.Kept elsewhere h desiredSize (S.demandedSize h minSize) st.mem h' st'.mem) ∧
      (b = false → h' = h ∧ ∀ i, elsewhere i ∨ h.start ≤ i ∧ i < h.start + h.oldGenSize → st'.mem i = st.mem i) := by
  obtain ⟨hdvd, hlarge, -, hle, hpage⟩ := q.demanded
  have hmin := q.align_eq hdvd hle
  have hdes := q.align_eq q.dvd_desired le_rfl
  have hok : S.Ok (S.demandedSize h minSize) desiredSize ⟨16, desiredSize, 0, S.demandedSize h minSize, desiredSize⟩ :=
    .start hdvd q.dvd_desired
  have hfuel : desiredSize < S.demandedSize h minSize + desiredSize * S.pageSize := by
    have := Nat.le_mul_of_pos_right desiredSize S.pageSize_pos
    have := S.pageSize_pos
    omega
  obtain ⟨b, h', st', hrun, hmade, hsame⟩ := remapLoop_spec (A := Y.held) h hpage q.page desiredSize _ false h st hok
    hfuel nofun fun _ => rfl
  have hkeep : Keeping elsewhere h st.mem h st.mem :=
    ⟨by have := q.live_le; have := q.mapped.withMapsSize; omega, fun _ _ => rfl, fun _ _ => rfl⟩
  obtain ⟨hkept, hgranted⟩ := remapLoop_keeps q hY hok hkeep (fun hb => absurd hb Bool.false_ne_true) hrun
  refine ⟨b, h', st', Returns.of_succ (n := desiredSize + 1) ?_ fun k hk => ?_, fun hb => ?_, fun hb => ?_⟩
  · rw [remapHeap, hmin, hdes]
    exact hrun
  · rw [remapHeap, hmin, hdes] at hk ⊢
    exact remapLoop_succ hk
  · have hm := hmade hb
    exact ⟨hm.ge, hm.le, hm.mapped q, hm.oldGenSize, hgranted hb, hkept.bytes, hkept.others⟩
  · have heq := hsame hb
    refine ⟨heq, fun i hi => ?_⟩
    rcases hi with hi | ⟨hlo, hhi⟩
    · exact hkept.others i hi
    · have hbyte := hkept.bytes (i - h.start) (by omega)
      rwa [heq, show h.start + (i - h.start) = i by omega] at hbyte

variable (addressBits) in
/-- **A heap is created** where the system has granted it, and no byte changes. -/
theorem createHeap_granted (q : S.Asks h desiredSize minSize) (A : Allocator) (h₁ : MappedHeap) (st : World) :
    ∃ b h' st', Returns (fun k => S.createHeap addressBits A k h₁ desiredSize (S.demandedSize h minSize) st)
        (b, h', st') ∧ st'.mem = st.mem ∧ (b = false → h' = h₁) ∧
      (b = true → S.demandedSize h minSize ≤ h'.size ∧ h'.size ≤ desiredSize ∧ S.Mapped h' ∧
        ∃ c a, A.mmapAnon c a h'.withMapsSize = some h'.start) := by
  obtain ⟨hdvd, hlarge, -, hle, hpage⟩ := q.demanded
  have hmin := q.align_eq hdvd hle
  have hdes := q.align_eq q.dvd_desired le_rfl
  have hok : S.Ok (S.demandedSize h minSize) desiredSize ⟨16, desiredSize, 0, S.demandedSize h minSize, desiredSize⟩ :=
    .start hdvd q.dvd_desired
  have hfuel : desiredSize < S.demandedSize h minSize + desiredSize * S.pageSize := by
    have := Nat.le_mul_of_pos_right desiredSize S.pageSize_pos
    have := S.pageSize_pos
    omega
  obtain ⟨b, h', st', hrun, hmem, hmade, hsame⟩ := @createLoop_spec S addressBits A _ _ h₁ hpage
    q.page.le desiredSize _ st hok hfuel
  refine ⟨b, h', st', Returns.of_succ (n := desiredSize + 1) ?_ fun k hk => ?_, hmem, hsame, fun hb => ?_⟩
  · rw [createHeap, if_neg (by omega), hmin, hdes]
    exact hrun
  · rw [createHeap, if_neg (by omega), hmin, hdes] at hk ⊢
    exact createLoop_succ hk
  · subst hb
    have hm := hmade rfl
    exact ⟨hm.ge, hm.le, hm.mapped q, createLoop_granted hrun⟩

/-- **The old heap**, which may have been shrunk, with what is in use. -/
structure Old (S : Sys) (elsewhere : ℕ → Prop) (h : MappedHeap) (m : Memory) (h₁ : MappedHeap) (m₁ : Memory) :
    Prop where
  mapped : S.Mapped h₁
  live_le : h.oldGenSize ≤ h₁.size
  maps_le : h₁.withMapsSize ≤ h.withMapsSize
  start : 0 < h.oldGenSize → h₁.start = h.start
  start_or : h₁.start = h.start ∨ h₁.start = 0 ∧ h₁.withMapsSize = 0
  bytes : ∀ i < h.oldGenSize, m₁ (h₁.start + i) = m (h.start + i)
  others : ∀ i, elsewhere i → m₁ i = m i

variable {m : Memory} {h₁ : MappedHeap}

/-- What is elsewhere is not in the old heap. -/
theorem Old.outside {m₁ : Memory} (o : S.Old elsewhere h m h₁ m₁)
    (helse : ∀ i, elsewhere i → i < h.start ∨ h.start + h.withMapsSize ≤ i) {i : ℕ} (hi : elsewhere i) :
    i < h₁.start ∨ h₁.start + h₁.withMapsSize ≤ i := by
  have := helse i hi
  have := o.maps_le
  have := o.start_or
  omega

theorem Old.shrink (o : S.Old elsewhere h m h₁ st.mem)
    (helse : ∀ i, elsewhere i → i < h.start ∨ h.start + h.withMapsSize ≤ i) :
    S.Old elsewhere h m (S.shrinkHeap Y h₁ h.oldGenSize st).1 (S.shrinkHeap Y h₁ h.oldGenSize st).2.mem := by
  have hs : S.Shrunk h₁ h.oldGenSize st (S.shrinkHeap Y h₁ h.oldGenSize st).1 (S.shrinkHeap Y h₁ h.oldGenSize st).2 :=
    shrinkHeap_spec o.mapped o.live_le
  refine ⟨hs.mapped, hs.le_size, le_trans hs.maps_le o.maps_le, fun hpos => (hs.start hpos).trans (o.start hpos), ?_,
    fun i hi => ?_, fun i hi => ?_⟩
  · have := hs.maps_le
    have := hs.start_or
    have := o.start_or
    omega
  · rw [hs.start (by omega), hs.kept _ (.inl (by omega))]
    exact o.bytes i hi
  · have := o.outside helse hi
    rw [hs.kept i (by omega)]
    exact o.others i hi

/-- The heap that is released leaves what is elsewhere. -/
theorem Old.release (o : S.Old elsewhere h m h₁ st.mem)
    (helse : ∀ i, elsewhere i → i < h.start ∨ h.start + h.withMapsSize ≤ i) {i : ℕ} (hi : elsewhere i) :
    (Y.releaseHeap h₁ st).2.mem i = m i := by
  have := o.outside helse hi
  rw [GrowSystem.releaseHeap]
  split
  case isTrue => exact o.others i hi
  case isFalse => exact (if_neg (by omega)).trans (o.others i hi)

variable (addressBits) in
/-- **What has been written to a file is read back**, if a heap is granted. -/
theorem pageHeap_spec (q : S.Asks h desiredSize minSize) (hY : S.Keeps Y elsewhere kept)
    (helse : ∀ i, elsewhere i → i < h.start ∨ h.start + h.withMapsSize ≤ i) (o : S.Old elsewhere h m h₁ st.mem) :
    ∃ r, Returns (fun k => S.pageHeap addressBits Y k h₁ h.oldGenSize desiredSize (S.demandedSize h minSize) st) r ∧
      ∀ h' st', r = .grown h' st' → S.Kept elsewhere h desiredSize (S.demandedSize h minSize) m h' st'.mem := by
  obtain ⟨-, hlarge, -, -, -⟩ := q.demanded
  have hfuel : h.oldGenSize ≤ h.oldGenSize * copyChunkSize := Nat.le_mul_of_pos_right _ (by decide)
  obtain ⟨data, hwrite, hdata, -⟩ := inChunks_spec (m := st.mem) h₁.start 0 h.oldGenSize Y.lost hfuel
  obtain ⟨b, h₂, st₂, ⟨n, hcreate⟩, hmem, -, hmade⟩ :=
    createHeap_granted addressBits q Y.released (Y.releaseHeap h₁ st).1 (Y.releaseHeap h₁ st).2
  obtain ⟨mem, hread, hbytes, hothers⟩ := inChunks_spec (m := data) 0 h₂.start h.oldGenSize st₂.mem hfuel
  by_cases hwrites : Y.writes = true
  case neg =>
    refine ⟨.died, ⟨0, fun k _ => ?_⟩, nofun⟩
    dsimp only
    rw [pageHeap, if_neg hwrites]
  case pos =>
    refine ⟨if b ∧ Y.reads then .grown { h₂ with oldGenSize := h.oldGenSize } { st₂ with mem := mem } else .died,
      ⟨Nat.max n (h.oldGenSize + 1), fun k hk => ?_⟩, fun h' st' hr => ?_⟩
    · have hn : n ≤ k := le_trans (Nat.le_max_left ..) hk
      have hlive : h.oldGenSize + 1 ≤ k := le_trans (Nat.le_max_right ..) hk
      have hc : S.createHeap addressBits Y.released k (Y.releaseHeap h₁ st).1 desiredSize (S.demandedSize h minSize)
        (Y.releaseHeap h₁ st).2 = some (b, h₂, st₂) := hcreate k hn
      dsimp only
      rw [pageHeap, if_pos hwrites, hwrite k (by omega)]
      dsimp only [Option.bind_eq_bind, Option.bind_some]
      rw [hc]
      dsimp only [Option.bind_some]
      rw [hread k (by omega)]
      cases b <;> cases Y.reads <;> rfl
    · split at hr
      case isFalse => cases hr
      case isTrue hb =>
        cases hr
        obtain ⟨hge, hle, hmapped, c, a, hgrant⟩ := hmade hb.1
        have hg := hY.released _ _ _ _ hgrant
        have hsize := hmapped.withMapsSize
        have hlive := q.live_le
        refine ⟨hge, hle, ⟨hmapped.dvd, hmapped.withMapsSize, hmapped.lt⟩, rfl, hg, fun i hi => ?_, fun i hi => ?_⟩
        · dsimp only
          rw [hbytes i hi, hdata i hi]
          exact o.bytes i hi
        · have := hg.apart i hi
          dsimp only
          rw [hothers i (by omega), hmem]
          exact o.release helse hi

/-- The heap while a second one is asked for: it has been shrunk if it is too small to be kept. -/
def heldHeap (S : Sys) (Y : GrowSystem) (h : MappedHeap) (minSize : ℕ) : MappedHeap :=
  if minSize ≤ h.size then h else (S.shrinkHeap Y h h.oldGenSize ⟨true, 0, 0, Y.lost⟩).1

/-- What a heap is shrunk to does not depend on the memory. -/
theorem shrinkHeap_fst (keepSize : ℕ) (st st' : World) :
    (S.shrinkHeap Y h keepSize st).1 = (S.shrinkHeap Y h keepSize st').1 := by
  rw [shrinkHeap, shrinkHeap, GrowSystem.releaseHeap, GrowSystem.releaseHeap]
  dsimp only
  split <;> split <;> rfl

/-- The heap stays where it is. -/
def Stays (elsewhere : ℕ → Prop) (h : MappedHeap) (m : Memory) (h' : MappedHeap) (m' : Memory) : Prop :=
  h' = h ∧ ∀ i, elsewhere i ∨ h.start ≤ i ∧ i < h.start + h.oldGenSize → m' i = m i

/-- **The heap is copied in chunks** to where the system has granted one. -/
theorem copy_kept (q : S.Asks h desiredSize minSize)
    (helse : ∀ i, elsewhere i → i < h.start ∨ h.start + h.withMapsSize ≤ i) (o : S.Old elsewhere h m h₁ st.mem)
    {h₂ : MappedHeap} (hge : S.demandedSize h minSize ≤ h₂.size) (hle : h₂.size ≤ desiredSize) (hmapped : S.Mapped h₂)
    (hg : S.Granted elsewhere h₂.withMapsSize h₂.start)
    (hapart : h₂.start + h₂.withMapsSize ≤ h₁.start ∨ h₁.start + h₁.withMapsSize ≤ h₂.start) :
    ∃ st', (∀ k > h.oldGenSize, S.copyLoop Y h₂.start k (S.shrinkHeap Y h₁ h.oldGenSize st).1
        ((S.shrinkHeap Y h₁ h.oldGenSize st).1.start + h.oldGenSize) (h₂.start + h.oldGenSize) h.oldGenSize
        (S.shrinkHeap Y h₁ h.oldGenSize st).2 = some st') ∧
      S.Kept elsewhere h desiredSize (S.demandedSize h minSize) m { h₂ with oldGenSize := h.oldGenSize } st'.mem := by
  obtain ⟨-, hlarge, -, -, -⟩ := q.demanded
  have hs : S.Shrunk h₁ h.oldGenSize st _ _ := shrinkHeap_spec (Y := Y) o.mapped o.live_le
  have o₂ := o.shrink (Y := Y) helse
  generalize S.shrinkHeap Y h₁ h.oldGenSize st = r at hs o₂
  have hlive := q.live_le
  have hwm := o₂.mapped.withMapsSize
  have hlive' := o₂.live_le
  have hsize := hmapped.withMapsSize
  have hstart := hs.start_or
  have hmaps := hs.maps_le
  have hcopying : S.Copying r.1.start r.1.withMapsSize h₂.start h.oldGenSize r.2.mem r.1 h.oldGenSize r.2.mem :=
    ⟨o₂.mapped, o₂.live_le, le_rfl, fun _ => rfl, .inl rfl, fun _ _ => rfl, fun i hi hge => absurd hi (by omega),
      fun _ _ _ => rfl⟩
  have hfuel : h.oldGenSize < (h.oldGenSize + 1) * copyChunkSize := by
    have := Nat.le_mul_of_pos_right (h.oldGenSize + 1) (show 0 < copyChunkSize by decide)
    omega
  obtain ⟨st', hrun, hbytes, hothers⟩ := copyLoop_spec (Y := Y) (by omega) (by omega) hcopying le_rfl hfuel
  refine ⟨st', fun k hk => hrun k hk, hge, hle, ⟨hmapped.dvd, hmapped.withMapsSize, hmapped.lt⟩, rfl, hg,
    fun i hi => (hbytes i hi).trans (o₂.bytes i hi), fun i hi => ?_⟩
  have := hg.apart i hi
  rw [hothers i (o₂.outside helse hi) (by omega)]
  exact o₂.others i hi

variable (addressBits) in
/-- **What becomes of a heap that is not remapped.** -/
theorem copyHeap_spec (mayPageHeap : Bool) (q : S.Asks h desiredSize minSize)
    (hY : S.Keeps Y elsewhere (S.heldHeap Y h minSize))
    (helse : ∀ i, elsewhere i → i < h.start ∨ h.start + h.withMapsSize ≤ i) (o : S.Old elsewhere h m h st.mem) :
    ∃ r, Returns (fun k => S.copyHeap addressBits Y k (decide (minSize ≤ h.size)) mayPageHeap h h.oldGenSize desiredSize
        (S.demandedSize h minSize) st) r ∧ (r = .died → h.size < minSize) ∧
      ∀ h' st', r = .grown h' st' → S.Kept elsewhere h desiredSize (S.demandedSize h minSize) m h' st'.mem ∨
        minSize ≤ h.size ∧ Stays elsewhere h m h' st'.mem := by
  -- the heap is shrunk if it is not to be kept
  obtain ⟨h₁, st₁, hfirst, hheld, o₁, hkeep⟩ : ∃ h₁ st₁,
      (if decide (minSize ≤ h.size) = true then (h, st) else S.shrinkHeap Y h h.oldGenSize st) = (h₁, st₁) ∧
        S.heldHeap Y h minSize = h₁ ∧ S.Old elsewhere h m h₁ st₁.mem ∧
          (minSize ≤ h.size → h₁ = h ∧ st₁ = st) := by
    by_cases hle : minSize ≤ h.size
    · exact ⟨h, st, by rw [decide_eq_true hle, if_pos rfl], if_pos hle, o, fun _ => ⟨rfl, rfl⟩⟩
    · refine ⟨_, _, by rw [decide_eq_false hle, if_neg nofun], ?_, o.shrink helse, fun h => absurd h hle⟩
      rw [heldHeap, if_neg hle]
      exact shrinkHeap_fst _ _ _
  rw [hheld] at hY
  obtain ⟨b, h₂, st₂, ⟨n, hsecond⟩, hmem, hmade⟩ : ∃ b h₂ st₂,
      Returns (fun k => S.secondHeap addressBits Y k h₁ desiredSize (S.demandedSize h minSize) st₁) (b, h₂, st₂) ∧
        st₂.mem = st₁.mem ∧ (b = true → S.demandedSize h minSize ≤ h₂.size ∧ h₂.size ≤ desiredSize ∧ S.Mapped h₂ ∧
          ∃ c a, Y.held.mmapAnon c a h₂.withMapsSize = some h₂.start) := by
    simp only [secondHeap]
    split
    case isTrue =>
      obtain ⟨b, h₂, st₂, hrun, hmem, -, hmade⟩ :=
        createHeap_granted addressBits q Y.held .init st₁
      exact ⟨b, h₂, st₂, hrun, hmem, hmade⟩
    case isFalse => exact ⟨false, .init, st₁, ⟨0, fun _ _ => rfl⟩, rfl, nofun⟩
  have o₂ : S.Old elsewhere h m h₁ st₂.mem := hmem ▸ o₁
  have hrun : ∀ k ≥ n, S.copyHeap addressBits Y k (decide (minSize ≤ h.size)) mayPageHeap h h.oldGenSize desiredSize
      (S.demandedSize h minSize) st =
        if b then
          (S.copyLoop Y h₂.start k (S.shrinkHeap Y h₁ h.oldGenSize st₂).1
            ((S.shrinkHeap Y h₁ h.oldGenSize st₂).1.start + h.oldGenSize) (h₂.start + h.oldGenSize) h.oldGenSize
            (S.shrinkHeap Y h₁ h.oldGenSize st₂).2).bind fun st =>
              some (.grown { h₂ with oldGenSize := h.oldGenSize } st)
        else if decide (minSize ≤ h.size) = true then some (.grown h₁ st₂)
        else if mayPageHeap then
          S.pageHeap addressBits Y k h₁ h.oldGenSize desiredSize (S.demandedSize h minSize) st₂
        else some .died := fun k hk => by
    have hc := hsecond k hk
    dsimp only at hc
    rw [copyHeap, hfirst]
    dsimp only [Option.bind_eq_bind]
    rw [hc]
    rfl
  cases b with
  | true =>
    obtain ⟨hge, hle, hmapped, c, a, hgrant⟩ := hmade rfl
    obtain ⟨hg, hapart⟩ := hY.mmap _ _ _ _ hgrant
    obtain ⟨st', hloop, hkept⟩ := copy_kept (Y := Y) q helse o₂ hge hle hmapped hg hapart
    refine ⟨.grown { h₂ with oldGenSize := h.oldGenSize } st', ⟨Nat.max n (h.oldGenSize + 1), fun k hk => ?_⟩, nofun,
      fun h' st'' hr => ?_⟩
    · have hn : n ≤ k := le_trans (Nat.le_max_left ..) hk
      have hlive : h.oldGenSize + 1 ≤ k := le_trans (Nat.le_max_right ..) hk
      refine (hrun k hn).trans ?_
      rw [if_pos rfl, hloop k hlive]
      rfl
    · cases hr
      exact .inl hkept
  | false =>
    by_cases huse : minSize ≤ h.size
    · obtain ⟨rfl, rfl⟩ := hkeep huse
      refine ⟨.grown h₁ st₂, ⟨n, fun k hk => ?_⟩, nofun, fun h' st' hr => ?_⟩
      · refine (hrun k hk).trans ?_
        rw [if_neg nofun, decide_eq_true huse, if_pos rfl]
      · cases hr
        refine .inr ⟨huse, rfl, fun i hi => ?_⟩
        rcases hi with hi | ⟨hlo, hhi⟩
        · exact o₂.others i hi
        · have hbyte := o₂.bytes (i - h₁.start) (by omega)
          rwa [show h₁.start + (i - h₁.start) = i by omega] at hbyte
    · cases mayPageHeap with
      | false =>
        refine ⟨.died, ⟨n, fun k hk => ?_⟩, fun _ => by omega, nofun⟩
        refine (hrun k hk).trans ?_
        rw [if_neg nofun, decide_eq_false huse, if_neg nofun, if_neg nofun]
      | true =>
        obtain ⟨r, ⟨n', hpage⟩, hkept⟩ := pageHeap_spec addressBits q hY helse o₂
        refine ⟨r, ⟨Nat.max n n', fun k hk => ?_⟩, fun _ => by omega, fun h' st' hr => .inl (hkept h' st' hr)⟩
        have hn : n ≤ k := le_trans (Nat.le_max_left ..) hk
        have hn' : n' ≤ k := le_trans (Nat.le_max_right ..) hk
        refine (hrun k hn).trans ?_
        rw [if_neg nofun, decide_eq_false huse, if_neg nofun, if_pos rfl]
        exact hpage k hn'

variable (addressBits) in
/-- **What becomes of a heap that is to grow**, up to the translation of pointers. -/
theorem moveHeap_spec (mayPageHeap : Bool) (q : S.Asks h desiredSize minSize)
    (hY : S.Keeps Y elsewhere (S.heldHeap Y h minSize))
    (helse : ∀ i, elsewhere i → i < h.start ∨ h.start + h.withMapsSize ≤ i) (st : World) :
    ∃ r, Returns (fun k => S.moveHeap addressBits Y k mayPageHeap h desiredSize minSize st) r ∧
      (r = .died → h.size < minSize) ∧ ∀ h' st', r = .grown h' st' →
        S.Kept elsewhere h desiredSize (S.demandedSize h minSize) st.mem h' st'.mem ∨
          minSize ≤ h.size ∧ Stays elsewhere h st.mem h' st'.mem := by
  have hpage := q.page
  have hlt := q.lt_desired
  have hdemanded : (if decide (minSize ≤ h.size) = true then SizeT.add S.width h.size S.pageSize else minSize) =
      S.demandedSize h minSize := by
    rw [demandedSize, SizeT.add_eq (by omega)]
    simp only [decide_eq_true_eq]
  obtain ⟨b, h₁, st₁, ⟨n, hremap⟩, hkept, hsame⟩ := remapHeap_keeps q hY st
  cases b with
  | true =>
    refine ⟨.grown h₁ st₁, ⟨n, fun k hk => ?_⟩, nofun, fun h' st' hr => ?_⟩
    · have hr := hremap k hk
      dsimp only at hr ⊢
      rw [moveHeap, hdemanded, hr]
      rfl
    · cases hr
      exact .inl (hkept rfl)
  | false =>
    obtain ⟨rfl, hmem⟩ := hsame rfl
    have o : S.Old elsewhere h₁ st.mem h₁ st₁.mem :=
      ⟨q.mapped, q.live_le, le_rfl, fun _ => rfl, .inl rfl, fun i hi => hmem _ (.inr ⟨by omega, by omega⟩),
        fun i hi => hmem i (.inl hi)⟩
    obtain ⟨r, ⟨n', hcopy⟩, hdied, hgrown⟩ := copyHeap_spec addressBits mayPageHeap q hY helse o
    refine ⟨r, ⟨Nat.max n n', fun k hk => ?_⟩, hdied, hgrown⟩
    have hr := hremap k (le_trans (Nat.le_max_left ..) hk)
    have hc := hcopy k (le_trans (Nat.le_max_right ..) hk)
    dsimp only at hr hc ⊢
    rw [moveHeap, hdemanded, hr]
    exact hc

end Kept

/-! ## Growing a heap -/

/-- **A heap has grown**, or stays if it is large enough; what is in use is at the same offsets, and in it and in the
roots each pointer into the heap has been moved by the difference of the starts. -/
structure HasGrown (S : Sys) (L : Layout) (elsewhere : ℕ → Prop) (roots slots : List ℕ) (h : MappedHeap)
    (desiredSize minSize : ℕ) (m : Memory) (h' : MappedHeap) (m' : Memory) : Prop where
  new : h' = h ∧ minSize ≤ h.size ∨ h.size < h'.size ∧ h'.size ≤ desiredSize ∧ S.Mapped h'
  size_ge : minSize ≤ h'.size
  oldGenSize : h'.oldGenSize = h.oldGenSize
  pointers : ∀ a ∈ slots,
    L.word m' (h'.start + a) = Layout.translated h.start h'.start h.oldGenSize (L.word m (h.start + a))
  globals : ∀ a ∈ roots, L.word m' a = Layout.translated h.start h'.start h.oldGenSize (L.word m a)
  bytes : ∀ i < h.oldGenSize, (∀ a ∈ slots, i < a ∨ a + L.wordSize ≤ i) → m' (h'.start + i) = m (h.start + i)
  others : ∀ i, elsewhere i → (∀ a ∈ roots, i < a ∨ a + L.wordSize ≤ i) → m' i = m i

/-- A root is not in a range that is granted. -/
theorem Granted.root_apart {elsewhere : ℕ → Prop} {size p a n : ℕ} (hg : S.Granted elsewhere size p) (hsize : 0 < size)
    (ha : ∀ j < n, elsewhere (a + j)) (hn : 0 < n) : a + n ≤ p ∨ p + size ≤ a := by
  rcases hg.apart a (ha 0 hn) with hlt | hge
  · by_contra hno
    have := hg.apart (a + (p - a)) (ha (p - a) (by omega))
    omega
  · exact .inr hge

/-- The same bytes are the same number, wherever they are. -/
theorem read_eq_of_bytes {m m' : Memory} : ∀ {n a b : ℕ}, (∀ i < n, m' (b + i) = m (a + i)) → m'.read n b = m.read n a
  | 0, _, _, _ => rfl
  | n + 1, a, b, h => by
    have hrest : m'.read n (b + 1) = m.read n (a + 1) := read_eq_of_bytes fun i hi => by
      have := h (i + 1) (by omega)
      rwa [← Nat.add_assoc, ← Nat.add_assoc, Nat.add_right_comm, Nat.add_right_comm a] at this
    rw [Memory.read, Memory.read, hrest, show m' b = m a from h 0 (by omega)]

/-- In a heap that stays, a pointer stays what it is. -/
theorem translated_self (start size v : ℕ) : Layout.translated start start size v = v := by
  rw [Layout.translated]
  split
  case isTrue h => exact Nat.sub_add_cancel h.2.1
  case isFalse => rfl

theorem alignment_dvd_pageSize (S : Sys) (L : Layout) : L.alignment ∣ S.pageSize := by
  have h8 : 8 ∣ S.pageSize := dvd_trans (by decide) (Nat.pow_dvd_pow 2 S.page_le)
  rcases L.align48 with h | h <;> rw [h]
  · exact dvd_trans (by decide) h8
  · exact h8

section Translate

variable {L : Layout} {elsewhere : ℕ → Prop} {roots slots reads : List ℕ} {desiredSize minSize : ℕ} {m m₁ : Memory}

/-- **A heap that stays where it is** needs no translation. -/
theorem HasGrown.of_same_start (hnew : h' = h ∧ minSize ≤ h.size ∨ h.size < h'.size ∧ h'.size ≤ desiredSize ∧ S.Mapped h')
    (hge : minSize ≤ h'.size) (hold : h'.oldGenSize = h.oldGenSize) (hstart : h'.start = h.start)
    (hbytes : ∀ i < h.oldGenSize, m₁ (h'.start + i) = m (h.start + i)) (hothers : ∀ i, elsewhere i → m₁ i = m i)
    (hobjects : L.Objects (fun i => m (h.start + i)) h.oldGenSize slots reads)
    (hout : ∀ a ∈ roots, ∀ j < L.wordSize, elsewhere (a + j)) :
    HasGrown S L elsewhere roots slots h desiredSize minSize m h' m₁ where
  new := hnew
  size_ge := hge
  oldGenSize := hold
  pointers a ha := by
    have hle := hobjects.slots_le a ha
    rw [hstart, translated_self]
    refine read_eq_of_bytes fun i hi => ?_
    have hbyte := hbytes (a + i) (by omega)
    rwa [hstart, ← Nat.add_assoc] at hbyte
  globals a ha := by
    rw [hstart, translated_self]
    exact read_eq_of_bytes fun i hi => hothers _ (hout a ha i hi)
  bytes i hi _ := hbytes i hi
  others i hi _ := hothers i hi

/-- **A heap that has moved is translated.** -/
theorem translate_kept (hL : S.width = 8 * L.wordSize) (q : S.Asks h desiredSize minSize) (hne : h.start ≠ h'.start)
    (hkept : S.Kept elsewhere h desiredSize (S.demandedSize h minSize) m h' m₁)
    (hobjects : L.Objects (fun i => m (h.start + i)) h.oldGenSize slots reads)
    (hroots : roots.Pairwise L.Apart) (hout : ∀ a ∈ roots, ∀ j < L.wordSize, elsewhere (a + j)) :
    ∃ m', (∃ n, ∀ k ≥ n, L.translateHeap k roots h.start h'.start h'.oldGenSize m₁ = some m') ∧
      HasGrown S L elsewhere roots slots h desiredSize minSize m h' m' := by
  obtain ⟨-, hlarge, hmin, -, -⟩ := q.demanded
  have hg := hkept.granted
  have hlt := hg.lt
  have hwm := hkept.mapped.withMapsSize
  have hge := hkept.size_ge
  have hlive := q.live_le
  have hws := L.wordSize_pos
  rw [hL] at hlt
  have hroots_out : ∀ a ∈ roots, a + L.wordSize ≤ h'.start ∨ h'.start + h.oldGenSize ≤ a := fun a ha => by
    have := hg.root_apart (by omega) (hout a ha) hws
    omega
  have hwords : ∀ a, a + L.wordSize ≤ h.oldGenSize → L.word m₁ (h'.start + a) = L.word m (h.start + a) := fun a ha => by
    refine read_eq_of_bytes fun i hi => ?_
    have hbyte := hkept.bytes (a + i) (by omega)
    rwa [← Nat.add_assoc, ← Nat.add_assoc] at hbyte
  have hview : ∀ a, L.word (fun i => m (h.start + i)) a = L.word m (h.start + a) := fun a =>
    read_eq_of_bytes fun i _ => by rw [Nat.add_assoc]
  obtain ⟨m', hrun, hslots, hbytes⟩ := Layout.translateHeap_spec hobjects hne
    (dvd_trans (alignment_dvd_pageSize S L) hg.dvd) (by omega : h'.start + h.oldGenSize < _)
    (fun a ha => (hwords a (hobjects.reads_le a ha)).trans (hview a).symm) hroots hroots_out
  refine ⟨m', by rw [hkept.oldGenSize]; exact hrun, .inr ⟨by omega, hkept.size_le, hkept.mapped⟩, by omega,
    hkept.oldGenSize, fun a ha => ?_, fun a ha => ?_, fun i hi hno => ?_, fun i hi hno => ?_⟩
  · rw [hslots _ (List.mem_append_right _ (List.mem_map_of_mem ha)), hwords a (hobjects.slots_le a ha)]
  · rw [hslots a (List.mem_append_left _ ha)]
    exact congrArg _ (read_eq_of_bytes fun i hi => hkept.others _ (hout a ha i hi))
  · rw [hbytes _ fun a ha => ?_]
    · exact hkept.bytes i hi
    · obtain ha | ha := List.mem_append.mp ha
      · have := hroots_out a ha
        omega
      · obtain ⟨c, hc, rfl⟩ := List.mem_map.mp ha
        have := hno c hc
        omega
  · rw [hbytes _ fun a ha => ?_]
    · exact hkept.others i hi
    · obtain ha | ha := List.mem_append.mp ha
      · exact hno a ha
      · obtain ⟨c, hc, rfl⟩ := List.mem_map.mp ha
        have := hobjects.slots_le c hc
        have := hg.apart i hi
        omega

/-- **Growing a heap loses nothing.**  For each request that `resizeHeap` makes, whatever the system answers, the
heap is moved to one of at least the least size, or stays if it has that size, or the process dies because it does
not; what is in use is kept, and its pointers are translated. -/
theorem growHeap_spec (S : Sys) (L : Layout) (hL : S.width = 8 * L.wordSize) (addressBits : ℕ) (Y : GrowSystem)
    (elsewhere : ℕ → Prop) (mayPageHeap : Bool) (roots slots reads : List ℕ) (h : MappedHeap)
    (desiredSize minSize : ℕ) (st : World) (q : S.Asks h desiredSize minSize)
    (hY : S.Keeps Y elsewhere (S.heldHeap Y h minSize))
    (helse : ∀ i, elsewhere i → i < h.start ∨ h.start + h.withMapsSize ≤ i)
    (hobjects : L.Objects (fun i => st.mem (h.start + i)) h.oldGenSize slots reads)
    (hroots : roots.Pairwise L.Apart) (hout : ∀ a ∈ roots, ∀ j < L.wordSize, elsewhere (a + j)) :
    ∃ r, Returns (fun k => S.growHeap addressBits Y L k mayPageHeap roots h desiredSize minSize st) r ∧
      (r = .died → h.size < minSize) ∧ ∀ h' st', r = .grown h' st' →
        HasGrown S L elsewhere roots slots h desiredSize minSize st.mem h' st'.mem := by
  obtain ⟨-, hlarge, hmin, -, -⟩ := q.demanded
  obtain ⟨r, ⟨n, hmove⟩, hdied, hgrown⟩ := moveHeap_spec addressBits mayPageHeap q hY helse st
  cases r with
  | died =>
    refine ⟨.died, ⟨n, fun k hk => ?_⟩, hdied, (by rintro _ _ ⟨⟩)⟩
    have hr := hmove k hk
    dsimp only at hr ⊢
    rw [growHeap, hr]
    rfl
  | grown h₁ st₁ =>
    have hresult : ∀ {m'}, (∃ n, ∀ k ≥ n, L.translateHeap k roots h.start h₁.start h₁.oldGenSize st₁.mem = some m') →
        Returns (fun k => S.growHeap addressBits Y L k mayPageHeap roots h desiredSize minSize st)
          (.grown h₁ { st₁ with mem := m' }) := by
      rintro m' ⟨n', htranslate⟩
      refine ⟨Nat.max n n', fun k hk => ?_⟩
      have hr := hmove k (le_trans (Nat.le_max_left ..) hk)
      dsimp only at hr ⊢
      rw [growHeap, hr]
      dsimp only [Option.bind_eq_bind, Option.bind_some]
      rw [htranslate k (le_trans (Nat.le_max_right ..) hk)]
      rfl
    by_cases hstart : h.start = h₁.start
    · have hsame : ∀ k, L.translateHeap k roots h.start h₁.start h₁.oldGenSize st₁.mem = some st₁.mem := fun k => by
        rw [Layout.translateHeap, if_pos hstart]
      refine ⟨_, hresult ⟨0, fun k _ => hsame k⟩, (by rintro ⟨⟩), fun h' st' hr => ?_⟩
      cases hr
      rcases hgrown _ _ rfl with hkept | ⟨hle, rfl, hmem⟩
      · have hge := hkept.size_ge
        exact .of_same_start (.inr ⟨by omega, hkept.size_le, hkept.mapped⟩) (by omega) hkept.oldGenSize hstart.symm
          hkept.bytes hkept.others hobjects hout
      · exact .of_same_start (.inl ⟨rfl, hle⟩) hle rfl rfl (fun i hi => hmem _ (.inr ⟨by omega, by omega⟩))
          (fun i hi => hmem i (.inl hi)) hobjects hout
    · rcases hgrown _ _ rfl with hkept | ⟨-, rfl, -⟩
      · obtain ⟨m', hrun, hgrown⟩ := translate_kept hL q hstart hkept hobjects hroots hout
        refine ⟨_, hresult hrun, (by rintro ⟨⟩), fun h' st' hr => ?_⟩
        cases hr
        exact hgrown
      · exact absurd rfl hstart

end Translate

/-! ## A heap of a page -/

/-- Objects of a word and a pointer. -/
def pairs64 : Layout where
  alignment := 8
  frameInfos := []
  maxFrameSize := 0
  objectTypes := [⟨.normal, true, 8, 1⟩]
  returnAddressToFrameIndex := id
  wordSize := 8
  align48 := eight_allowed
  native := eight_allowed

/-- One page with its maps, and one object in it. -/
def page : MappedHeap := ⟨⟨0x100000, 24, 4096, 0x100000⟩, 12288⟩

/-- The object points to itself, and so does a root. -/
def pageWorld : World :=
  ⟨true, 0, 0, Memory.write (Memory.write (Memory.write (fun _ => 0) 8 0x100000 1) 8 0x100010 0x100008) 8 64 0x100008⟩

/-- A system that does not remap, and grants what is below a megabyte at one place. -/
def grantsSecond : GrowSystem :=
  let A : Allocator := ⟨fun _ _ size => if size < 0x100000 then some 0x200000 else none, fun _ _ _ _ => none⟩
  ⟨A, A, fun _ => 255, true, true⟩

theorem page_mapped : sys64.Mapped page := ⟨by decide, by decide, by decide⟩

theorem page_asks : sys64.Asks page 8192 8192 :=
  ⟨page_mapped, by decide, by decide, by decide, by decide, by decide, by decide, by decide, by decide⟩

theorem grantsSecond_granted {A : Allocator} (hA : A = grantsSecond.held) (c a size p : ℕ)
    (h : A.mmapAnon c a size = some p) : sys64.Granted (· < 4096) size p ∧ p = 0x200000 := by
  subst hA
  obtain ⟨hlt, h⟩ := Option.ite_none_right_eq_some.mp h
  cases Option.some.inj h
  refine ⟨⟨by decide, by decide, ?_, fun i hi => .inl (by omega)⟩, rfl⟩
  change _ < 2 ^ 64
  omega

theorem page_objects : pairs64.Objects (fun i => pageWorld.mem (page.start + i)) page.oldGenSize [16] [0, 0] := by
  have hadvance : pairs64.advanceToObjectData (fun i => pageWorld.mem (page.start + i)) 0 = 8 := by decide
  have hheader : pairs64.getHeader (fun i => pageWorld.mem (page.start + i)) 8 = 1 := by decide
  have hobject : pairs64.ObjectAt (fun i => pageWorld.mem (page.start + i)) 8 [16] [0] 24 :=
    .normal (show pairs64.splitHeader (pairs64.getHeader _ 8) = some ⟨.normal, true, 8, 1⟩ by rw [hheader]; rfl) rfl
  refine ⟨.object (by decide) (hadvance ▸ hobject) .nil, by decide, by decide, List.pairwise_singleton _ _, ?_⟩
  intro a ha b hb
  cases List.mem_singleton.mp ha
  have : b = 0 := by simpa using hb
  exact .inr (by subst this; decide)

theorem growHeap_spec_pair : ∃ r,
    Returns (fun k => sys64.growHeap 48 grantsSecond pairs64 k false [64] page 8192 8192 pageWorld) r ∧
      (r = .died → page.size < 8192) ∧ ∀ h' st', r = .grown h' st' →
        HasGrown sys64 pairs64 (· < 4096) [64] [16] page 8192 8192 pageWorld.mem h' st'.mem := by
  refine growHeap_spec sys64 pairs64 rfl 48 grantsSecond (· < 4096) false [64] [16] [0, 0] page 8192 8192 pageWorld
    page_asks ⟨fun c a size p h => ?_, nofun, fun c a size p h => (grantsSecond_granted rfl c a size p h).1⟩
    (fun i hi => .inl ?_) page_objects (List.pairwise_singleton _ _) (fun a ha j hj => ?_)
  · obtain ⟨hg, rfl⟩ := grantsSecond_granted rfl c a size p h
    exact ⟨hg, .inr (by decide)⟩
  · exact lt_trans hi (by decide)
  · cases List.mem_singleton.mp ha
    have : j < 8 := hj
    omega

/-- A system that grants nothing, and cannot write files. -/
def grantsNothing : GrowSystem := ⟨⟨fun _ _ _ => none, fun _ _ _ _ => none⟩, ⟨fun _ _ _ => none, fun _ _ _ _ => none⟩,
  fun _ => 255, false, false⟩

/-- A machine without card marking. -/
def plain64 : Sys := { sys64 with mutatorMarksCards := false }

/-- **A heap that is large enough stays** when the system grants nothing: it neither grows nor goes through a file,
nor does the process die.  And **with all pages but the last as the desired size**, a system that remaps the heap to
every size is asked for ever. -/
theorem growHeap_stays :
    (∃ st', Returns (fun k => sys64.growHeap 48 grantsNothing pairs64 k true [64] page 8192 4096 pageWorld)
      (.grown page st')) ∧
    ∀ k, plain64.growHeap 48 ⟨grantsAll, grantsAll, fun _ => 255, true, true⟩ pairs64 k true [64]
      { page with withMapsSize := 4096 } (2 ^ 64 - 4096) 8192 pageWorld = none := by
  refine ⟨⟨{ pageWorld with calls := 33 }, 4, fun k hk => ?_⟩, fun k => ?_⟩
  · obtain ⟨k, rfl⟩ := Nat.exists_eq_add_of_le' hk
    rfl
  · have hok : plain64.Ok 0 (2 ^ 64 - 4096) ⟨16, 2 ^ 64 - 4096, 0, 8192, 2 ^ 64 - 4096⟩ :=
      ⟨⟨4, by decide, by decide, rfl⟩, by decide, le_rfl, by decide, Nat.zero_le _,
        fun _ => ⟨by decide, by decide, le_rfl⟩⟩
    have hendless := remapLoop_endless (A := grantsAll) (fun _ _ _ _ => ⟨_, rfl⟩) (by decide) k
      ⟨16, 2 ^ 64 - 4096, 0, 8192, 2 ^ 64 - 4096⟩ false { page with withMapsSize := 4096 } pageWorld hok rfl (by decide)
    have hhigh : SizeT.align plain64.width (2 ^ 64 - 4096) plain64.pageSize = 2 ^ 64 - 4096 := by decide
    have hlow : SizeT.align plain64.width 8192 plain64.pageSize = 8192 := by decide
    have hmove : plain64.moveHeap 48 ⟨grantsAll, grantsAll, fun _ => 255, true, true⟩ k true
        { page with withMapsSize := 4096 } (2 ^ 64 - 4096) 8192 pageWorld = none := by
      rw [moveHeap, if_neg (by decide), remapHeap, hhigh, hlow, hendless]
      rfl
    rw [growHeap, hmove]
    rfl

end Sys

end MLton.Runtime
