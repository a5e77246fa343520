import MLton.Machinery.Memory
import MLton.Runtime.HeapMaps

/-!
# Runtime/HeapCreate — the search for a heap that the system grants

`createHeap` and `remapHeap` look for a size between a least and a desired one that the system grants, by a
biased binary search in whole pages.  The system may grant or refuse any request, as it likes; what it does is
a function of the number of the request, so that it may change its mind.

The sizes of a search stay in whole pages and in order (`Search.Ok`) as long as the desired size, rounded up
to pages, fits into a size, so that no step of the search wraps around.
-/

namespace MLton.Runtime

/-- `struct GC_heap`, with the size of the maps. -/
structure MappedHeap extends Heap where
  withMapsSize : ℕ

/-- `initHeap`. -/
def MappedHeap.init : MappedHeap := ⟨⟨0, 0, 0, 0⟩, 0⟩

/-- The system: `GC_mmapAnon` of an address and a size, and `GC_mremap` of a mapping and a size; each is given
the number of the request. -/
structure Allocator where
  mmapAnon : ℕ → ℕ → ℕ → Option ℕ
  mremap : ℕ → ℕ → ℕ → ℕ → Option ℕ

/-- What requests change: the direction in which addresses are tried, how many requests there have been, the
statistics and the memory. -/
structure World where
  addressScanDir : Bool
  calls : ℕ
  maxHeapSize : ℕ
  mem : Memory

/-- The state of a search. -/
structure Search where
  factor : ℕ
  highSize : ℕ
  loopCount : ℕ
  lowSize : ℕ
  newSize : ℕ

namespace Sys

variable (S : Sys) (addressBits : ℕ) (A : Allocator)

/-- The next size to be tried, nearer to the high end. -/
def nextSize (factor highSize lowSize : ℕ) : ℕ :=
  SizeT.align S.width
    (SizeT.add S.width (SizeT.mul S.width (factor - 1) (highSize / factor)) (lowSize / factor)) S.pageSize

/-- The size has been refused. -/
def backOff (x : Search) : Search :=
  let highSize := SizeT.sub S.width x.newSize S.pageSize
  { x with highSize := highSize, newSize := S.nextSize x.factor highSize x.lowSize }

/-- The size has been granted, and a larger one may be. -/
def goOn (x : Search) : Search :=
  let lowSize := SizeT.add S.width x.newSize S.pageSize
  { x with lowSize := lowSize, newSize := S.nextSize x.factor x.highSize lowSize }

/-- Every 64 refusals, step less. -/
def rebias (x : Search) : Search :=
  if x.factor < S.pageSize then
    let loopCount := (x.loopCount + 1) % 2 ^ 32
    { x with
      loopCount := loopCount
      factor := if loopCount % 64 = 0 then SizeT.add S.width x.factor x.factor else x.factor }
  else x

/-- `newWithMapsSize`. -/
def withMaps (newSize : ℕ) : ℕ := SizeT.add S.width newSize (S.sizeofCardMapAndCrossMap newSize)

/-! ## Creating a heap -/

def addressCountLog2 : ℕ := 5

def addressCount : ℕ := 0x1 <<< addressCountLog2

/-- The address that is asked for in the step `i`; any address in the last one. -/
def address (addressScanDir : Bool) (i : ℕ) : ℕ :=
  let addressStep := 0x1 <<< (addressBits - addressCountLog2)
  let addressHigh := if addressBits = S.width then 0 else 0x1 <<< addressBits
  let address := SizeT.mul S.width i addressStep
  let address := if addressScanDir then SizeT.sub S.width addressHigh address else address
  if i = addressCount then 0 else address

/-- Ask for a size at the addresses from the step `i` on: the start, if one is granted, and the number of
requests. -/
def scan (addressScanDir : Bool) (size : ℕ) : ℕ → ℕ → ℕ → Option ℕ × ℕ
  | 0, _, calls => (none, calls)
  | steps + 1, i, calls =>
    match A.mmapAnon calls (S.address addressBits addressScanDir i) size with
    | some newStart => (some newStart, calls + 1)
    | none => scan addressScanDir size steps (i + 1) (calls + 1)

/-- The loop of `createHeap`. -/
def createLoop (h : MappedHeap) : ℕ → Search → World → Option (Bool × MappedHeap × World)
  | 0, _, _ => none
  | k + 1, x, st =>
    if x.lowSize ≤ x.highSize then
      match S.scan addressBits A st.addressScanDir (S.withMaps x.newSize) addressCount 1 st.calls with
      | (some newStart, calls) =>
        some (true, { h with start := newStart, size := x.newSize, withMapsSize := S.withMaps x.newSize },
          { st with
            addressScanDir := !st.addressScanDir
            calls := calls
            maxHeapSize := if st.maxHeapSize < x.newSize then x.newSize else st.maxHeapSize })
      | (none, calls) => createLoop h k (S.rebias (S.backOff x)) { st with calls := calls }
    else some (false, h, st)

/-- `createHeap`. -/
def createHeap (k : ℕ) (h : MappedHeap) (desiredSize minSize : ℕ) (st : World) :
    Option (Bool × MappedHeap × World) :=
  let desiredSize := if desiredSize < minSize then minSize else desiredSize
  let minSize := SizeT.align S.width minSize S.pageSize
  let desiredSize := SizeT.align S.width desiredSize S.pageSize
  S.createLoop addressBits A h k ⟨16, desiredSize, 0, minSize, desiredSize⟩ st

/-! ## Remapping a heap -/

/-- The loop of `remapHeap`.  What is mapped at the old start is mapped at the new one. -/
def remapLoop : ℕ → Search → Bool → MappedHeap → World → Option (Bool × MappedHeap × World)
  | 0, _, _, _, _ => none
  | k + 1, x, result, h, st =>
    if x.lowSize ≤ x.highSize then
      match A.mremap st.calls h.start h.withMapsSize (S.withMaps x.newSize) with
      | some newStart =>
        remapLoop k (S.goOn x) true
          { h with start := newStart, size := x.newSize, withMapsSize := S.withMaps x.newSize }
          { st with
            calls := st.calls + 1
            maxHeapSize := if st.maxHeapSize < x.newSize then x.newSize else st.maxHeapSize
            mem := st.mem.copy h.start newStart (Nat.min h.withMapsSize (S.withMaps x.newSize)) }
      | none => remapLoop k (S.backOff x) result h { st with calls := st.calls + 1 }
    else some (result, h, st)

/-- `remapHeap`. -/
def remapHeap (k : ℕ) (h : MappedHeap) (desiredSize minSize : ℕ) (st : World) :
    Option (Bool × MappedHeap × World) :=
  let minSize := SizeT.align S.width minSize S.pageSize
  let desiredSize := SizeT.align S.width desiredSize S.pageSize
  S.remapLoop A k ⟨16, desiredSize, 0, minSize, desiredSize⟩ false h st

/-! ## The sizes of a search -/

/-- **What holds in a search** between two sizes in whole pages. -/
structure Ok (minSize desiredSize : ℕ) (x : Search) : Prop where
  factor : ∃ j, 4 ≤ j ∧ j ≤ S.pageLog2 ∧ x.factor = 2 ^ j
  high_dvd : S.pageSize ∣ x.highSize
  high_le : x.highSize ≤ desiredSize
  low_dvd : S.pageSize ∣ x.lowSize
  low_ge : minSize ≤ x.lowSize
  new : x.lowSize ≤ x.highSize → S.pageSize ∣ x.newSize ∧ x.lowSize ≤ x.newSize ∧ x.newSize ≤ x.highSize

variable {S addressBits A} {minSize desiredSize : ℕ} {x : Search}

/-- **The next size lies between the ends**, in whole pages. -/
theorem nextSize_spec {j low high : ℕ} (hj : j ≤ S.pageLog2) (hlow : S.pageSize ∣ low) (hhigh : S.pageSize ∣ high)
    (hle : low ≤ high) (hlt : high + S.pageSize ≤ 2 ^ S.width) : S.pageSize ∣ S.nextSize (2 ^ j) high low ∧
      low ≤ S.nextSize (2 ^ j) high low ∧ S.nextSize (2 ^ j) high low ≤ high := by
  have hpos := S.pageSize_pos
  have hf : 0 < 2 ^ j := Nat.two_pow_pos j
  have hdvd : 2 ^ j ∣ S.pageSize := Nat.pow_dvd_pow 2 hj
  obtain ⟨b, hb⟩ := dvd_trans hdvd hlow
  obtain ⟨a, ha⟩ := dvd_trans hdvd hhigh
  generalize 2 ^ j = f at hf hb ha ⊢
  have hdiva : high / f = a := by rw [ha, Nat.mul_div_cancel_left a hf]
  have hdivb : low / f = b := by rw [hb, Nat.mul_div_cancel_left b hf]
  have hba : b ≤ a := Nat.le_of_mul_le_mul_left (by rwa [← ha, ← hb]) hf
  have hsplit : (f - 1) * a + a = high := by
    rw [ha, ← Nat.succ_mul, Nat.succ_eq_add_one, Nat.sub_add_cancel hf]
  have hlow' : low ≤ (f - 1) * a + b := by
    have : (f - 1) * b ≤ (f - 1) * a := Nat.mul_le_mul_left _ hba
    have hsplit' : (f - 1) * b + b = low := by
      rw [hb, ← Nat.succ_mul, Nat.succ_eq_add_one, Nat.sub_add_cancel hf]
    omega
  have hmul : SizeT.mul S.width (f - 1) (high / f) = (f - 1) * a := by
    rw [hdiva, SizeT.mul_eq (by omega)]
  have hadd : SizeT.add S.width ((f - 1) * a) b = (f - 1) * a + b := SizeT.add_eq (by omega)
  obtain ⟨hge, -, hleast⟩ := SizeT.align_spec (w := S.width) (a := (f - 1) * a + b) hpos (by omega)
  rw [nextSize, hmul, hdivb, hadd]
  exact ⟨SizeT.dvd_align, le_trans hlow' hge, hleast high hhigh (by omega)⟩

namespace Ok

/-- The search starts with the desired size. -/
theorem start (hlow : S.pageSize ∣ minSize) (hhigh : S.pageSize ∣ desiredSize) :
    S.Ok minSize desiredSize ⟨16, desiredSize, 0, minSize, desiredSize⟩ where
  factor := ⟨4, le_rfl, le_trans (by norm_num) S.page_le, rfl⟩
  high_dvd := hhigh
  high_le := le_rfl
  low_dvd := hlow
  low_ge := le_rfl
  new hle := ⟨hhigh, hle, le_rfl⟩

/-- **A refused size is at least a page**, and the next high end is a page below it. -/
theorem sub_eq (h : S.Ok minSize desiredSize x) (hmin : S.pageSize ≤ minSize)
    (hlt : desiredSize + S.pageSize ≤ 2 ^ S.width) (hle : x.lowSize ≤ x.highSize) : S.pageSize ≤ x.newSize ∧
      SizeT.sub S.width x.newSize S.pageSize = x.newSize - S.pageSize := by
  obtain ⟨-, hlow, hhigh⟩ := h.new hle
  have hpage : S.pageSize ≤ x.newSize := le_trans hmin (le_trans h.low_ge hlow)
  have := h.high_le
  have hpos := S.pageSize_pos
  exact ⟨hpage, SizeT.sub_eq hpage (by omega)⟩

theorem backOff (h : S.Ok minSize desiredSize x) (hmin : S.pageSize ≤ minSize)
    (hlt : desiredSize + S.pageSize ≤ 2 ^ S.width) (hle : x.lowSize ≤ x.highSize) :
    S.Ok minSize desiredSize (S.backOff x) ∧ (S.backOff x).highSize + S.pageSize ≤ x.highSize := by
  obtain ⟨hdvd, hlow, hhigh⟩ := h.new hle
  obtain ⟨hpage, hsub⟩ := h.sub_eq hmin hlt hle
  have hhle := h.high_le
  have hhigh' : (S.backOff x).highSize = x.newSize - S.pageSize := hsub
  have hdvd' : S.pageSize ∣ (S.backOff x).highSize := hhigh' ▸ Nat.dvd_sub hdvd dvd_rfl
  obtain ⟨j, hj, hj', hf⟩ := h.factor
  refine ⟨⟨⟨j, hj, hj', hf⟩, hdvd', by omega, h.low_dvd, h.low_ge, fun hle' => ?_⟩, by omega⟩
  have hnext := nextSize_spec (S := S) (j := j) hj' h.low_dvd hdvd' hle' (by omega)
  rw [← hf] at hnext
  exact hnext

theorem rebias (h : S.Ok minSize desiredSize x) : S.Ok minSize desiredSize (S.rebias x) := by
  rw [Sys.rebias]
  split
  case isFalse => exact h
  case isTrue hlt =>
    obtain ⟨j, hj, hj', hf⟩ := h.factor
    refine ⟨?_, h.high_dvd, h.high_le, h.low_dvd, h.low_ge, h.new⟩
    dsimp only
    split
    case isTrue =>
      have hjlt : j < S.pageLog2 := (Nat.pow_lt_pow_iff_right (a := 2) (by norm_num)).mp (hf ▸ hlt)
      have hfit := S.pageSize_mul_le
      have hpos := S.pageSize_pos
      exact ⟨j + 1, by omega, hjlt, by rw [SizeT.add_eq (by omega), hf, pow_succ, Nat.mul_two]⟩
    case isFalse => exact ⟨j, hj, hj', hf⟩

theorem goOn (h : S.Ok minSize desiredSize x) (hlt : desiredSize + S.pageSize < 2 ^ S.width)
    (hle : x.lowSize ≤ x.highSize) :
    S.Ok minSize desiredSize (S.goOn x) ∧ x.lowSize + S.pageSize ≤ (S.goOn x).lowSize := by
  obtain ⟨hdvd, hlow, hhigh⟩ := h.new hle
  have hhle := h.high_le
  have hlge := h.low_ge
  have hlow' : (S.goOn x).lowSize = x.newSize + S.pageSize := SizeT.add_eq (by omega)
  have hdvd' : S.pageSize ∣ (S.goOn x).lowSize := hlow' ▸ Nat.dvd_add hdvd dvd_rfl
  obtain ⟨j, hj, hj', hf⟩ := h.factor
  refine ⟨⟨⟨j, hj, hj', hf⟩, h.high_dvd, h.high_le, hdvd', by omega, fun hle' => ?_⟩, by omega⟩
  have hnext := nextSize_spec (S := S) (j := j) hj' hdvd' h.high_dvd hle' (by omega)
  rw [← hf] at hnext
  exact hnext

end Ok

/-! ## What is made -/

/-- **A heap of a size between the two**, in whole pages, that the system has mapped with its maps; its old
generation is as it was. -/
structure Made (S : Sys) (minSize desiredSize : ℕ) (h h' : MappedHeap) : Prop where
  dvd : S.pageSize ∣ h'.size
  ge : minSize ≤ h'.size
  le : h'.size ≤ desiredSize
  withMapsSize : h'.withMapsSize = S.withMaps h'.size
  oldGenSize : h'.oldGenSize = h.oldGenSize
  nursery : h'.nursery = h.nursery

/-- **The loop of `createHeap` ends**, by induction on the pages below the high end. -/
theorem createLoop_spec (h : MappedHeap) (hmin : S.pageSize ≤ minSize)
    (hlt : desiredSize + S.pageSize ≤ 2 ^ S.width) : ∀ (k : ℕ) (x : Search) (st : World),
    S.Ok minSize desiredSize x → x.highSize < x.lowSize + k * S.pageSize →
    ∃ b h' st', S.createLoop addressBits A h (k + 1) x st = some (b, h', st') ∧ st'.mem = st.mem ∧
      (b = true → S.Made minSize desiredSize h h') ∧ (b = false → h' = h)
  | k, x, st, hx, hk => by
    rw [createLoop]
    split
    case isFalse => exact ⟨false, h, st, rfl, rfl, nofun, fun _ => rfl⟩
    case isTrue hle =>
      obtain ⟨hdvd, hlow, hhigh⟩ := hx.new hle
      split
      case h_1 newStart calls _ =>
        exact ⟨true, _, _, rfl, rfl,
          fun _ => ⟨hdvd, le_trans hx.low_ge hlow, le_trans hhigh hx.high_le, rfl, rfl, rfl⟩, nofun⟩
      case h_2 calls _ =>
        obtain ⟨hback, hhigh'⟩ := hx.backOff hmin hlt hle
        cases k with
        | zero => omega
        | succ k =>
          have hk' : (S.rebias (S.backOff x)).highSize < (S.rebias (S.backOff x)).lowSize + k * S.pageSize := by
            have hsame : (S.rebias (S.backOff x)).highSize = (S.backOff x).highSize ∧
                (S.rebias (S.backOff x)).lowSize = x.lowSize := by
              rw [rebias]
              split <;> exact ⟨rfl, rfl⟩
            rw [Nat.succ_mul] at hk
            omega
          exact createLoop_spec h hmin hlt k _ { st with calls := calls } hback.rebias hk'

/-- **The loop of `remapHeap` ends**, by induction on the pages between the ends; when one size has been
granted, the heap has the last of them. -/
theorem remapLoop_spec (h₀ : MappedHeap) (hmin : S.pageSize ≤ minSize)
    (hlt : desiredSize + S.pageSize < 2 ^ S.width) : ∀ (k : ℕ) (x : Search) (result : Bool) (h : MappedHeap)
    (st : World), S.Ok minSize desiredSize x → x.highSize < x.lowSize + k * S.pageSize →
    (result = true → S.Made minSize desiredSize h₀ h) → (result = false → h = h₀) →
    ∃ b h' st', S.remapLoop A (k + 1) x result h st = some (b, h', st') ∧
      (b = true → S.Made minSize desiredSize h₀ h') ∧ (b = false → h' = h₀)
  | k, x, result, h, st, hx, hk, hmade, hsame => by
    rw [remapLoop]
    split
    case isFalse => exact ⟨result, h, st, rfl, hmade, hsame⟩
    case isTrue hle =>
      obtain ⟨hdvd, hlow, hhigh⟩ := hx.new hle
      cases k with
      | zero => omega
      | succ k =>
        rw [Nat.succ_mul] at hk
        split
        case h_1 newStart _ =>
          obtain ⟨hgo, hlow'⟩ := hx.goOn hlt hle
          have hold : h.oldGenSize = h₀.oldGenSize ∧ h.nursery = h₀.nursery := by
            cases result with
            | true => exact ⟨(hmade rfl).oldGenSize, (hmade rfl).nursery⟩
            | false => rw [hsame rfl]; exact ⟨rfl, rfl⟩
          refine remapLoop_spec h₀ hmin hlt k _ true _ _ hgo ?_ (fun _ => ?_) nofun
          · change x.highSize < _
            omega
          · exact ⟨hdvd, le_trans hx.low_ge hlow, le_trans hhigh hx.high_le, rfl, hold.1, hold.2⟩
        case h_2 =>
          obtain ⟨hback, hhigh'⟩ := hx.backOff hmin hlt.le hle
          refine remapLoop_spec h₀ hmin hlt k _ result h _ hback ?_ hmade hsame
          change _ < x.lowSize + _
          omega

/-- **The states of a search**, whatever is granted: from the start of one, by refusals and, where a search
goes on, by grants. -/
inductive Searches (S : Sys) (goesOn : Bool) (minSize desiredSize : ℕ) : Search → Prop
  | start : Searches S goesOn minSize desiredSize ⟨16, desiredSize, 0, minSize, desiredSize⟩
  | refused {x : Search} : Searches S goesOn minSize desiredSize x → x.lowSize ≤ x.highSize →
      Searches S goesOn minSize desiredSize (if goesOn then S.backOff x else S.rebias (S.backOff x))
  | granted {x : Search} : goesOn → Searches S goesOn minSize desiredSize x → x.lowSize ≤ x.highSize →
      Searches S goesOn minSize desiredSize (S.goOn x)

theorem Searches.ok {goesOn : Bool} (hlow : S.pageSize ∣ minSize) (hhigh : S.pageSize ∣ desiredSize)
    (hmin : S.pageSize ≤ minSize) (hlt : desiredSize + S.pageSize ≤ 2 ^ S.width)
    (hgo : goesOn → desiredSize + S.pageSize < 2 ^ S.width) (h : S.Searches goesOn minSize desiredSize x) :
    S.Ok minSize desiredSize x := by
  induction h with
  | start => exact .start hlow hhigh
  | refused _ hle ih =>
    have hback := (ih.backOff hmin hlt hle).1
    split
    · exact hback
    · exact hback.rebias
  | granted h _ hle ih => exact (ih.goOn (hgo h) hle).1

/-- More fuel changes nothing. -/
theorem createLoop_succ {h : MappedHeap} {r : Bool × MappedHeap × World} : ∀ {k : ℕ} {x : Search} {st : World},
    S.createLoop addressBits A h k x st = some r → S.createLoop addressBits A h (k + 1) x st = some r
  | 0, _, _, hr => nomatch hr
  | k + 1, x, st, hr => by
    rw [createLoop] at hr ⊢
    split at hr
    case isFalse hle => rw [if_neg hle, hr]
    case isTrue hle =>
      rw [if_pos hle]
      split at hr
      case h_1 => exact hr
      case h_2 => exact createLoop_succ hr

theorem remapLoop_succ {r : Bool × MappedHeap × World} : ∀ {k : ℕ} {x : Search} {result : Bool} {h : MappedHeap}
    {st : World}, S.remapLoop A k x result h st = some r → S.remapLoop A (k + 1) x result h st = some r
  | 0, _, _, _, _, hr => nomatch hr
  | k + 1, x, result, h, st, hr => by
    rw [remapLoop] at hr ⊢
    split at hr
    case isFalse hle => rw [if_neg hle, hr]
    case isTrue hle =>
      rw [if_pos hle]
      split at hr
      case h_1 => exact remapLoop_succ hr
      case h_2 => exact remapLoop_succ hr

/-- The call returns, given fuel enough. -/
def Returns {α : Type} (call : ℕ → Option α) (r : α) : Prop := ∃ n, ∀ k ≥ n, call k = some r

theorem Returns.of_succ {α : Type} {call : ℕ → Option α} {r : α} {n : ℕ} (h : call n = some r)
    (hsucc : ∀ k, call k = some r → call (k + 1) = some r) : Returns call r :=
  ⟨n, fun _ hk => Nat.le_induction h (fun k _ hr => hsucc k hr) _ hk⟩

/-- **Sizes that can be rounded up to pages.** -/
theorem align_bounds {z : ℕ} (hpos : 0 < z) (hfit : z + (S.pageSize - 1) < 2 ^ S.width) :
    S.pageSize ≤ SizeT.align S.width z S.pageSize ∧ z ≤ SizeT.align S.width z S.pageSize ∧
      SizeT.align S.width z S.pageSize + S.pageSize ≤ 2 ^ S.width := by
  obtain ⟨hge, hle, -⟩ := SizeT.align_spec (w := S.width) S.pageSize_pos hfit
  have hdvd : S.pageSize ∣ SizeT.align S.width z S.pageSize := SizeT.dvd_align
  refine ⟨Nat.le_of_dvd (by omega) hdvd, hge, ?_⟩
  have hwidth : S.pageSize ∣ 2 ^ S.width := Nat.pow_dvd_pow 2 (le_trans (Nat.le_add_right _ 2) S.page_fits)
  have hrest := Nat.le_of_dvd (by omega) (Nat.dvd_sub hwidth hdvd)
  omega

/-- **The search for a heap.**  For sizes that can be rounded up to pages, the loop of `createHeap` ends however
the system answers; no difference of sizes falls below zero; a heap that is made has a size in whole pages,
between the two that are asked for in pages; and otherwise the heap is as before.  So does that of `remapHeap`,
if there is a page behind the desired size. -/
theorem createHeap_remapHeap_spec (S : Sys) (desiredSize minSize : ℕ) (hpos : 0 < minSize)
    (hle : minSize ≤ desiredSize) (hfit : desiredSize + (S.pageSize - 1) < 2 ^ S.width) :
    let low := SizeT.align S.width minSize S.pageSize
    let high := SizeT.align S.width desiredSize S.pageSize
    minSize ≤ low ∧ desiredSize ≤ high ∧ (S.pageSize ∣ desiredSize → high = desiredSize) ∧
    (∀ (addressBits : ℕ) (A : Allocator) (h : MappedHeap) (st : World), ∃ b h' st',
      Returns (fun k => S.createHeap addressBits A k h desiredSize minSize st) (b, h', st') ∧
      (b = true → S.Made low high h h') ∧ (b = false → h' = h)) ∧
    (∀ x, S.Searches false low high x → x.lowSize ≤ x.highSize → S.pageSize ≤ x.newSize ∧ 0 < x.factor) ∧
    (high + S.pageSize < 2 ^ S.width →
      (∀ (A : Allocator) (h : MappedHeap) (st : World), ∃ b h' st',
        Returns (fun k => S.remapHeap A k h desiredSize minSize st) (b, h', st') ∧
        (b = true → S.Made low high h h') ∧ (b = false → h' = h)) ∧
      ∀ x, S.Searches true low high x → x.lowSize ≤ x.highSize → S.pageSize ≤ x.newSize ∧ 0 < x.factor) := by
  intro low high
  have hlow : S.pageSize ∣ low := SizeT.dvd_align
  have hhigh : S.pageSize ∣ high := SizeT.dvd_align
  obtain ⟨hpage, hmin, -⟩ := align_bounds (S := S) hpos (by omega)
  obtain ⟨-, hdes, hlt⟩ := align_bounds (S := S) (lt_of_lt_of_le hpos hle) hfit
  have hfuel : high < low + high * S.pageSize := by
    have := Nat.le_mul_of_pos_right high S.pageSize_pos
    have := S.pageSize_pos
    omega
  have hok {goesOn : Bool} {x : Search} (hgo : goesOn → high + S.pageSize < 2 ^ S.width)
      (hx : S.Searches goesOn low high x) (hxle : x.lowSize ≤ x.highSize) : S.pageSize ≤ x.newSize ∧ 0 < x.factor := by
    have hx := hx.ok hlow hhigh hpage hlt hgo
    obtain ⟨j, -, -, hf⟩ := hx.factor
    exact ⟨(hx.sub_eq hpage hlt hxle).1, hf ▸ Nat.two_pow_pos j⟩
  refine ⟨hmin, hdes, fun hdvd => SizeT.align_of_dvd S.pageSize_pos hfit hdvd, fun addressBits A h st => ?_,
    fun x => hok nofun, fun hlt' => ⟨fun A h st => ?_, fun x => hok fun _ => hlt'⟩⟩
  · obtain ⟨b, h', st', hloop, -, htrue, hfalse⟩ := @createLoop_spec S addressBits A low high h hpage hlt
      high _ st (Ok.start hlow hhigh) hfuel
    refine ⟨b, h', st', Returns.of_succ (n := high + 1) ?_ fun k hk => ?_, htrue, hfalse⟩
    · simpa [createHeap, not_lt.mpr hle] using hloop
    · exact createLoop_succ hk
  · obtain ⟨b, h', st', hloop, htrue, hfalse⟩ := remapLoop_spec (A := A) h hpage hlt' high _ false h st
      (Ok.start hlow hhigh) hfuel nofun fun _ => rfl
    exact ⟨b, h', st', Returns.of_succ (n := high + 1) hloop fun k hk => remapLoop_succ hk, htrue, hfalse⟩

/-! ## Where the claim fails -/

/-- **With the last page of memory as the desired size, a search that is granted everything never ends**: the
next low end wraps around to zero. -/
theorem remapLoop_endless (hgrants : ∀ c a z z', ∃ p, A.mremap c a z z' = some p)
    (hend : desiredSize + S.pageSize = 2 ^ S.width) : ∀ (k : ℕ) (x : Search) (result : Bool) (h : MappedHeap)
    (st : World), S.Ok 0 desiredSize x → x.highSize = desiredSize → x.lowSize ≤ x.highSize →
    S.remapLoop A k x result h st = none
  | 0, _, _, _, _, _, _, _ => rfl
  | k + 1, x, result, h, st, hx, hhigh, hle => by
    obtain ⟨hdvd, hlow, hnew⟩ := hx.new hle
    have hpos := S.pageSize_pos
    -- the next low end is in pages, and not above the high end
    have hlow' : S.pageSize ∣ (S.goOn x).lowSize ∧ (S.goOn x).lowSize ≤ x.highSize := by
      change S.pageSize ∣ SizeT.add S.width x.newSize S.pageSize ∧ SizeT.add S.width x.newSize S.pageSize ≤ _
      obtain heq | hne := eq_or_ne x.newSize x.highSize
      · rw [heq, hhigh, SizeT.add, hend, Nat.mod_self]
        exact ⟨Nat.dvd_zero _, Nat.zero_le _⟩
      · have hrest := Nat.le_of_dvd (by omega) (Nat.dvd_sub hx.high_dvd hdvd)
        rw [SizeT.add_eq (by omega)]
        exact ⟨Nat.dvd_add hdvd dvd_rfl, by omega⟩
    obtain ⟨j, hj, hj', hf⟩ := hx.factor
    have hok : S.Ok 0 desiredSize (S.goOn x) := by
      refine ⟨⟨j, hj, hj', hf⟩, hx.high_dvd, hx.high_le, hlow'.1, Nat.zero_le _, fun _ => ?_⟩
      have hnext := nextSize_spec (S := S) (j := j) hj' hlow'.1 hx.high_dvd hlow'.2 (by omega)
      rw [← hf] at hnext
      exact hnext
    obtain ⟨p, hp⟩ := hgrants st.calls h.start h.withMapsSize (S.withMaps x.newSize)
    rw [remapLoop, if_pos hle, hp]
    exact remapLoop_endless hgrants hend k _ _ _ _ hok hhigh hlow'.2

/-- A system that grants everything. -/
def grantsAll : Allocator := ⟨fun _ _ _ => some 0x100000, fun _ _ _ _ => some 0x100000⟩

/-- A first world. -/
def world : World := ⟨true, 0, 0, fun _ => 0⟩

theorem createHeap_remapHeap_spec_page : ∃ b h' st',
    Returns (fun k => sys64.createHeap 48 grantsAll k .init 8192 4096 world) (b, h', st') ∧
    (b = true → sys64.Made 4096 8192 .init h') ∧ (b = false → h' = .init) :=
  (createHeap_remapHeap_spec sys64 8192 4096 (by decide) (by decide) (by decide)).2.2.2.1 48 grantsAll .init world

/-- **Sizes that are not in pages, or that cannot be rounded up to them**: a heap larger than desired, a size
of zero from which a page is subtracted, and a search that never ends. -/
theorem createHeap_remapHeap_fails :
    (sys64.createHeap 48 grantsAll 1 .init 5000 5000 world).map (fun r => (r.1, r.2.1.size)) = some (true, 8192) ∧
    (∃ x, sys64.Searches false (SizeT.align 64 (2 ^ 64 - 1) 4096) (SizeT.align 64 (2 ^ 64 - 1) 4096) x ∧
      x.lowSize ≤ x.highSize ∧ ¬ 4096 ≤ x.newSize) ∧
    ∀ k, sys64.remapHeap grantsAll k .init (2 ^ 64 - 4096) 4096 world = none := by
  refine ⟨by rfl, ⟨_, .start, by decide, by decide⟩, fun k => ?_⟩
  have hhigh : SizeT.align sys64.width (2 ^ 64 - 4096) sys64.pageSize = 2 ^ 64 - 4096 := by decide
  have hlow : SizeT.align sys64.width 4096 sys64.pageSize = 4096 := by decide
  rw [remapHeap, hhigh, hlow]
  have hok : sys64.Ok 0 (2 ^ 64 - 4096) ⟨16, 2 ^ 64 - 4096, 0, 4096, 2 ^ 64 - 4096⟩ :=
    ⟨⟨4, by decide, by decide, rfl⟩, by decide, le_rfl, by decide, Nat.zero_le _,
      fun _ => ⟨by decide, by decide, le_rfl⟩⟩
  exact remapLoop_endless (fun _ _ _ _ => ⟨_, rfl⟩) (by decide) k _ _ _ _ hok rfl (by decide)

end Sys

end MLton.Runtime
