import MLton.Runtime.WriteBarrier

/-!
# Runtime/CardMarks — the marks of a run

Every step keeps the invariant of the write barrier, whatever it marks.  What it marks is in the heap,
and hits the card map, as long as no `Update` stores a pointer into an object of mode `stack`
(`marks_in_range_iff`); after such a step a byte that is no card was written.
-/

namespace MLton.Runtime

namespace GCState

variable {T : Target} {s s' : GCState} {a : Action} {marks : List ℕ}

/-! ## Steps -/

section Marked

theorem updateCards_eq (ps : List ℕ) : s.updateCards T ps = s.markCards T ps := by
  induction ps generalizing s with
  | nil => rfl
  | cons p ps ih =>
    have hcard : s.updateCard T p = s.markCard T p := by
      rw [updateCard, markCard, Heap.updateCard_eq]
    exact (congrArg (updateCards T · ps) hcard).trans ih

@[simp] theorem markCards_objects (ps : List ℕ) : (s.markCards T ps).objects = s.objects := by
  rw [markCards_eq]

@[simp] theorem markCards_heap (ps : List ℕ) : (s.markCards T ps).heap = s.heap := by
  rw [markCards_eq]

@[simp] theorem markCards_held (ps : List ℕ) {v : ℕ} : (s.markCards T ps).Held v ↔ s.Held v := by
  rw [markCards_eq]
  rfl

end Marked

section Steps

variable {p : ℕ} {o : Object}

theorem Inv.current_heap (h : Inv T s) : s.oldGen.Has s.current ∨ s.nursery.Has s.current := by
  obtain ⟨o, ho, htag⟩ := h.current
  obtain ⟨hmode, -⟩ | ⟨-, ⟨hold, -⟩ | ⟨hnur, -⟩⟩ := h.placed _ o ho
  · exact absurd ((h.stackTag _ o ho hmode).symm.trans htag) nofun
  · exact .inl hold
  · exact .inr hnur

/-- A stack is in the heap. -/
theorem Inv.contains_stack (h : Inv T s) (ho : s.objects p = some o) (htag : o.tag = .stack) :
    s.heap.Contains p :=
  h.contains ho (fun hmode => absurd ((h.stackTag p o ho hmode).symm.trans htag) nofun)
    (o.stack_size htag)

theorem Inv.allocateNursery {frontier : ℕ} (h : Inv T s) (hmode : o.mode ≠ .stack)
    (hlt : s.frontier < p) (hend : p + o.size ≤ frontier) (hlimit : frontier ≤ s.heap.limit)
    (hslots : ∀ sl ∈ o.slots, s.Held sl.2) : Inv T { s.write p o with frontier := frontier } := by
  have hle : s.frontier ≤ frontier := by omega
  have hgrows : Grows s { s.write p o with frontier := frontier } :=
    ⟨rfl, rfl, rfl, rfl, rfl, rfl, le_rfl, rfl, hle⟩
  have hold : ¬ s.oldGen.Has p := fun hold =>
    absurd (hold.2.trans (h.oldGen.trans h.nursery)) (Nat.not_le.mpr hlt)
  refine h.allocate hgrows ⟨h.wf, h.oldGen, h.nursery.trans hle, hlimit, h.whole, h.regionTop, h.tops,
    h.region_apart, h.statics_apart⟩ rfl ?_ (fun sl hsl => hgrows.points (h.points_of_held (hslots sl hsl)))
    (fun hstack => absurd hstack hmode) (fun hcurrent => ?_) fun hold' => absurd hold' hold
  · have hnursery : s.heap.nursery < p := h.nursery.trans_lt hlt
    exact .inr ⟨hmode, .inr ⟨⟨hnursery, (Nat.le_add_right _ _).trans hend⟩, hend⟩⟩
  · obtain hin | hin := h.current_heap
    · exact hold (hcurrent ▸ hin)
    · exact absurd (hcurrent ▸ hin.2) (Nat.not_le.mpr hlt)

theorem Inv.sequenceAllocate {size ensureBytesFree : ℕ} (h : Inv T s) (hmode : o.mode ≠ .stack)
    (hfree : s.hasHeapBytesFree size ensureBytesFree) (hlt : s.heap.oldGenEnd < p)
    (hend : p + o.size ≤ s.heap.oldGenEnd + size) (hslots : ∀ sl ∈ o.slots, sl.2 = bogusObjptr) :
    Inv T { s.write p o with heap := { s.heap with oldGenSize := s.heap.oldGenSize + size } } := by
  have hnursery : s.heap.nursery ≤ s.heap.limit := h.nursery.trans h.frontier
  have hfits : s.heap.oldGenEnd + size ≤ s.heap.nursery ∧ (s.canMinor = false → size = 0) := by
    have hfree := hfree.1
    have hwhole := h.whole
    unfold Heap.oldGenEnd Heap.limit at *
    cases hcan : s.canMinor with
    | true =>
      rw [if_pos hcan] at hfree
      exact ⟨by omega, nofun⟩
    | false =>
      have := hwhole hcan
      rw [hcan, if_neg Bool.false_ne_true] at hfree
      exact ⟨by omega, fun _ => by omega⟩
  have hgrown : s.heap.start + (s.heap.oldGenSize + size) = s.heap.oldGenEnd + size :=
    (Nat.add_assoc _ _ _).symm
  have hbogus : ∀ sl ∈ o.slots, isObjptr sl.2 ≠ true := fun sl hsl => by rw [hslots sl hsl]; decide
  refine h.allocate ⟨rfl, rfl, rfl, rfl, rfl, rfl, (Nat.le_add_right _ _).trans hgrown.ge, rfl, le_rfl⟩
    ⟨⟨h.wf.start_aligned, h.wf.size_aligned, h.wf.maps⟩, hgrown.trans_le hfits.1, h.nursery, h.frontier,
      fun hcan => ?_, h.regionTop, h.tops, h.region_apart, h.statics_apart⟩ rfl ?_
    (fun sl hsl hptr => absurd hptr (hbogus sl hsl)) (fun hstack => absurd hstack hmode)
    (fun hcurrent => ?_) fun _ sl hsl hptr => absurd hptr (hbogus sl hsl)
  · rw [h.whole hcan, hfits.2 hcan]
    rfl
  · have hstart : s.heap.start < p := (Nat.le_add_right _ _).trans_lt hlt
    have hend := hend.trans hgrown.ge
    exact .inr ⟨hmode, .inl ⟨⟨hstart, (Nat.le_add_right _ _).trans hend⟩, hend⟩⟩
  · obtain hin | hin := h.current_heap
    · exact absurd (hcurrent ▸ hin.2) (Nat.not_le.mpr hlt)
    · have hp : p ≤ s.heap.nursery := (Nat.le_add_right _ _).trans (hend.trans hfits.1)
      exact absurd (hcurrent ▸ hin.1) (Nat.not_lt.mpr hp)

theorem Inv.allocateStack (h : Inv T s) (hmode : o.mode = .stack) (htag : o.tag = .normal)
    (hlt : s.regionTop < p) (hend : p + o.size ≤ s.regionBuffer.hi)
    (hslots : ∀ sl ∈ o.slots, s.Held sl.2) : Inv T { s.write p o with regionTop := p + o.size } := by
  have hgrows : Grows s { s.write p o with regionTop := p + o.size } :=
    ⟨rfl, rfl, rfl, rfl, rfl, rfl, le_rfl, rfl, le_rfl⟩
  have hin : s.regionBuffer.Has p := ⟨h.regionTop.trans_lt hlt, (Nat.le_add_right _ _).trans hend⟩
  have hlaid : Laid T { s.write p o with regionTop := p + o.size } :=
    ⟨h.wf, h.oldGen, h.nursery, h.frontier, h.whole, hin.1.le.trans (Nat.le_add_right _ _), h.tops,
      h.region_apart, h.statics_apart⟩
  refine h.allocate hgrows hlaid rfl (.inl ⟨hmode, hin, hend⟩)
    (fun sl hsl => hgrows.points (h.points_of_held (hslots sl hsl))) (fun _ => htag)
    (fun hcurrent => ?_) fun hold => absurd hin (h.region_apart.not_has (h.heap_of_oldGen hold))
  obtain hold | hnur := h.current_heap
  · exact h.region_apart.not_has (h.heap_of_oldGen hold) (hcurrent ▸ hin)
  · exact h.region_apart.not_has (h.heap_of_nursery hnur) (hcurrent ▸ hin)

theorem Inv.regionPop (h : Inv T s) : Inv T s.regionPop := by
  have hkept : ∀ {p o}, s.regionPop.objects p = some o → s.objects p = some o := by
    intro p o ho
    unfold GCState.regionPop at ho
    dsimp only at ho
    split at ho
    · cases ho
    · exact ho
  have htop : s.regionBuffer.lo ≤ s.tops.headD s.regionBuffer.lo := by
    cases htops : s.tops with
    | nil => exact le_rfl
    | cons t ts => exact h.tops t (htops ▸ List.mem_cons_self)
  refine ⟨⟨h.wf, h.oldGen, h.nursery, h.frontier, h.whole, htop,
    fun t ht => h.tops t (List.mem_of_mem_tail ht), h.region_apart, h.statics_apart⟩,
    fun p o ho => h.placed p o (hkept ho), fun p o ho => h.values p o (hkept ho),
    fun p o ho => h.stackTag p o (hkept ho), ?_, h.marked, fun p o ho => h.complete p o (hkept ho)⟩
  obtain ⟨o, ho, htag⟩ := h.current
  have hout : ¬ s.regionBuffer.Has s.current :=
    h.not_region ho fun hmode => absurd ((h.stackTag _ o ho hmode).symm.trans htag) nofun
  exact ⟨o, (if_neg fun hin => hout hin.1).trans ho, htag⟩

theorem Inv.collect {ps : List ℕ} (h : Inv T s) (hcollects : Collects T s s')
    (hps : s'.current ∈ ps) : Inv T (s'.markCards T ps) := by
  cases hcollects with
  | minor hminor hset hfills => exact (h.minor hminor).fills hset hfills hps
  | major hminor hmajor hset hfills => exact ((h.minor hminor).major hmajor).fills hset hfills hps

/-- **Every step keeps the invariant.** -/
theorem Inv.step (h : Inv T s) (hstep : Step T s a marks s') : Inv T s' := by
  cases hstep with
  | @update base offset v o isObjptr ho _ hiff hv =>
    rw [updateCards_eq]
    refine (h.markCards _).store (by simpa using ho) (by simpa using hv) fun hslot => ?_
    refine isCardMarked_markCards (.inr ?_)
    rw [updateMarks, hiff.mpr hslot]
    exact List.mem_singleton_self base
  | @sequenceCopy ad as bytesNonObjptrs numObjptrs ds ss l o src ho hsrc htag htag' _ =>
    refine (h.markCards _).copy (by simpa using ho) (q := as) (by simpa using hsrc)
      (fun hmode => absurd ((h.stackTag as src hsrc hmode).symm.trans htag') nofun) fun hslots hl => ?_
    refine isCardMarked_markCards (.inr ?_)
    have hpos : 0 < numObjptrs := Nat.pos_of_ne_zero fun hzero =>
      hslots (o.noObjptrs bytesNonObjptrs (hzero ▸ htag))
    rw [sequenceCopyMarks, if_pos ⟨hpos, hl⟩]
    exact List.mem_singleton_self ad
  | allocate hmode hlt hend hlimit hslots => exact h.allocateNursery hmode hlt hend hlimit hslots
  | sequenceAllocate hmode hfree hlt hend hslots => exact h.sequenceAllocate hmode hfree hlt hend hslots
  | allocateStack hmode htag hlt hend hslots => exact h.allocateStack hmode htag hlt hend hslots
  | regionPush _ =>
    exact ⟨⟨h.wf, h.oldGen, h.nursery, h.frontier, h.whole, h.regionTop.trans (Nat.le_add_right _ _),
      List.forall_mem_cons.mpr ⟨h.regionTop, h.tops⟩, h.region_apart, h.statics_apart⟩, h.placed,
      h.values, h.stackTag, h.current, h.marked, h.complete⟩
  | regionPop => exact h.regionPop
  | storeFrame ho _ hv => exact h.store ho hv fun _ => h.marked
  | @switchToThread p o ho htag =>
    have h' := h.markCards [p]
    exact ⟨⟨h'.wf, h'.oldGen, h'.nursery, h'.frontier, h'.whole, h'.regionTop, h'.tops, h'.region_apart,
      h'.statics_apart⟩, h'.placed, h'.values, h'.stackTag, ⟨o, ho, htag⟩,
      isCardMarked_markCard.mpr (.inl rfl), h'.complete⟩
  | collect hcollects _ =>
    exact h.collect hcollects (List.mem_append_right _ (List.mem_singleton_self _))

end Steps

/-! ## What a step marks -/

/-- The step is an `Update` of a pointer field of an object of mode `stack`. -/
def UpdatesStack (s : GCState) (a : Action) : Prop :=
  ∃ base offset v o, a = .update base offset v true ∧ s.objects base = some o ∧ o.mode = .stack

/-- **A mark is in the heap**, unless the step updates an object of mode `stack`. -/
theorem Inv.marks_contained (h : Inv T s) (hstep : Step T s a marks s') (hstack : ¬ s.UpdatesStack a) :
    ∀ p ∈ marks, s'.heap.Contains p := by
  have h' := h.step hstep
  intro p hp
  cases hstep with
  | @update base offset v o isObjptr ho _ hiff _ =>
    unfold updateMarks at hp
    split at hp
    · rename_i hptr
      obtain rfl := List.mem_singleton.mp hp
      have hptr : isObjptr = true := by simpa using hptr
      obtain ⟨sl, hsl, -⟩ := hiff.mp hptr
      rw [updateCards_eq]
      refine (markCards_heap (s := s) _).symm ▸ h.contains ho (fun hmode => ?_)
        (Nat.zero_lt_of_lt (o.inside sl hsl))
      exact hstack ⟨_, offset, v, o, hptr ▸ rfl, ho, hmode⟩
    · cases hp
  | @sequenceCopy ad as bytesNonObjptrs numObjptrs ds ss l o src ho _ htag _ hsize =>
    unfold sequenceCopyMarks at hp
    split at hp
    · rename_i hpos
      obtain rfl := List.mem_singleton.mp hp
      have hbytes : 0 < (bytesNonObjptrs + numObjptrs * T.objptrSize) * (ds + l) :=
        Nat.mul_pos (Nat.add_pos_right _ (Nat.mul_pos hpos.1 T.objptrSize_pos)) (Nat.add_pos_right _ hpos.2)
      exact (markCards_heap (s := s) _).symm ▸ h.contains ho
        (fun hmode => absurd ((h.stackTag _ o ho hmode).symm.trans htag) nofun) (hbytes.trans_le hsize)
    · cases hp
  | allocate | sequenceAllocate | allocateStack | regionPush | regionPop | storeFrame => cases hp
  | @switchToThread q o ho htag =>
    obtain rfl := List.mem_singleton.mp hp
    exact h.contains_stack ho htag
  | @collect s' thread _ hthread =>
    obtain hp | hp := List.mem_append.mp hp
    · obtain ⟨o, ho, hmode, hsize⟩ := hthread p (Option.mem_toList.mp hp)
      exact h'.contains (by simpa using ho) hmode hsize
    · obtain ⟨o, ho, htag⟩ := h'.current
      obtain rfl := List.mem_singleton.mp hp
      refine h'.contains_stack (p := s'.current) (o := o) ?_ htag
      rw [markCards_eq] at ho
      simpa using ho

/-- The mark of an update of an object of mode `stack` is not in the heap. -/
theorem Inv.marks_not_contained (h : Inv T s) (hstep : Step T s a marks s') (hstack : s.UpdatesStack a) :
    ∃ p ∈ marks, ¬ s'.heap.Contains p := by
  obtain ⟨base, offset, v, o, rfl, ho, hmode⟩ := hstack
  cases hstep with
  | @update _ _ _ o' _ ho' _ hiff _ =>
    obtain rfl := Option.some.inj (ho'.symm.trans ho)
    obtain ⟨sl, hsl, -⟩ := hiff.mp rfl
    refine ⟨base, List.mem_singleton_self base, ?_⟩
    rw [updateCards_eq]
    exact (markCards_heap (s := s) _).symm ▸
      h.not_contains ho' hmode (Nat.zero_lt_of_lt (o'.inside sl hsl))

/-! ## Runs -/

variable (T s) in
/-- What `initWorld` leaves: the objects of the dynamic static heap in the old generation, the first
thread and its stack in the nursery, and no regions. -/
structure Initial : Prop extends Laid T s where
  regions : s.regionTop = s.regionBuffer.lo ∧ s.tops = []
  placed : ∀ p o, s.objects p = some o →
    o.mode ≠ .stack ∧ (s.oldGen.Holds p o.size ∨ s.nursery.Holds p o.size)
  oldGen_values : ∀ p o, s.objects p = some o → s.oldGen.Has p → ∀ sl ∈ o.slots,
    isObjptr sl.2 = true → s.oldGen.Has sl.2 ∨ s.statics.Has sl.2
  nursery_values : ∀ p o, s.objects p = some o → s.nursery.Has p → ∀ sl ∈ o.slots,
    isObjptr sl.2 = true → s.nursery.Has sl.2
  current : ∃ o, s.objects s.current = some o ∧ o.tag = .stack
  marked : s.isCardMarked T s.current

theorem Initial.inv (h : Initial T s) : Inv T s := by
  refine ⟨h.toLaid, fun p o ho => .inr (h.placed p o ho), fun p o ho _ sl hsl hptr => ?_,
    fun p o ho hmode => absurd hmode (h.placed p o ho).1, h.current, h.marked,
    fun p o ho hold sl hsl hptr hnur => ?_⟩
  · obtain ⟨-, ⟨hold, -⟩ | ⟨hnur, -⟩⟩ := h.placed p o ho
    · obtain hin | hstatic := h.oldGen_values p o ho hold sl hsl hptr
      · exact .inl hin
      · exact .inr (.inr (.inr hstatic))
    · exact .inr (.inl (h.nursery_values p o ho hnur sl hsl hptr))
  · obtain hin | hstatic := h.oldGen_values p o ho hold sl hsl hptr
    · exact absurd hnur (h.not_nursery_of_oldGen hin)
    · exact absurd hstatic (h.statics_apart.not_has (h.heap_of_nursery hnur))

end GCState

namespace Taken

/-- Every mark of the step is in the heap, and hits the card map. -/
def InRange (T : Target) (st : Taken) : Prop :=
  ∀ p ∈ st.marks, st.next.heap.Contains p ∧
    st.next.heap.InCardMap T (st.next.heap.pointerToCardMapAddr T p)

end Taken

section Runs

variable {T : Target} {s₀ s : GCState} {l : List Taken}

/-- **Every step of a run** is one from a state with the invariant to another. -/
theorem Run.inv (hinitial : GCState.Initial T s₀) (hrun : Run T s₀ l s) :
    GCState.Inv T s ∧ ∀ st ∈ l, GCState.Inv T st.state ∧ Step T st.state st.action st.marks st.next ∧
      GCState.Inv T st.next := by
  induction hrun with
  | start => exact ⟨hinitial.inv, fun st hst => absurd hst List.not_mem_nil⟩
  | @step l s s' a marks _ hstep ih =>
    obtain ⟨h, ih⟩ := ih
    refine ⟨h.step hstep, fun st hst => ?_⟩
    obtain hst | hst := List.mem_append.mp hst
    · exact ih st hst
    · obtain rfl := List.mem_singleton.mp hst
      exact ⟨h, hstep, h.step hstep⟩

/-- **The write barrier**: in every run the cards of the slots of old objects that point into the nursery
are marked, and every mark hits the card map, if and only if no step updates a pointer field of an object
of mode `stack`. -/
theorem marks_in_range_iff (hinitial : GCState.Initial T s₀) (hrun : Run T s₀ l s) :
    (s₀.Complete T ∧ ∀ st ∈ l, st.next.Complete T ∧ st.InRange T) ↔
      ∀ st ∈ l, ¬ st.state.UpdatesStack st.action := by
  obtain ⟨-, hsteps⟩ := hrun.inv hinitial
  constructor
  · rintro ⟨-, hrange⟩ st hst hstack
    obtain ⟨h, hstep, -⟩ := hsteps st hst
    obtain ⟨p, hp, hout⟩ := h.marks_not_contained hstep hstack
    exact hout ((hrange st hst).2 p hp).1
  · intro hstack
    refine ⟨hinitial.inv.isComplete, fun st hst => ?_⟩
    obtain ⟨h, hstep, h'⟩ := hsteps st hst
    refine ⟨h'.isComplete, fun p hp => ?_⟩
    have hin := h.marks_contained hstep (hstack st hst) p hp
    exact ⟨hin, Heap.inCardMap_of_contains h'.wf hin⟩

/-! A program that starts with an empty dynamic heap, and has one object of mode `m` with one field. -/

section Sample

/-- A 64-bit machine. -/
def amd64 : Target := ⟨64, 8, 4096, by decide, by decide⟩

def startStack : Object := ⟨.heap, .stack, 64, [], nofun, nofun, by decide⟩

/-- An object with one field, an object pointer. -/
def cell (m : Mode) (v : ℕ) : Object :=
  ⟨m, .normal, 8, [(0, v)], by simp, nofun, by decide⟩

/-- The heap has 256 cards; the region buffer has 8 megabytes. -/
def startState : GCState where
  heap := ⟨2 ^ 16, 0, 2 ^ 16, 2 ^ 16⟩
  canMinor := true
  cards a := a = 2 ^ 17
  current := 2 ^ 16 + 16
  frontier := 2 ^ 16 + 80
  objects p := if p = 2 ^ 16 + 16 then some startStack else none
  regionBuffer := ⟨2 ^ 30, 2 ^ 30 + 2 ^ 23⟩
  regionTop := 2 ^ 30
  statics := ⟨2 ^ 12, 2 ^ 13⟩
  tops := []

theorem startState_initial : GCState.Initial amd64 startState := by
  have hobjects : ∀ p o, startState.objects p = some o → p = 2 ^ 16 + 16 ∧ o = startStack := by
    intro p o ho
    unfold startState at ho
    dsimp only at ho
    split at ho
    · rename_i hp
      exact ⟨hp, (Option.some.inj ho).symm⟩
    · cases ho
  refine ⟨⟨⟨by decide, by decide, by decide⟩, by decide, by decide, by decide, nofun, by decide, nofun,
    .inl (by decide), .inr (by decide)⟩, ⟨rfl, rfl⟩, fun p o ho => ?_, fun p o ho _ sl hsl => ?_,
    fun p o ho _ sl hsl => ?_, ⟨startStack, rfl, rfl⟩, by decide⟩
  · obtain ⟨rfl, rfl⟩ := hobjects p o ho
    exact ⟨by decide, .inr ⟨by decide, by decide⟩⟩
  · obtain ⟨-, rfl⟩ := hobjects p o ho
    exact absurd hsl List.not_mem_nil
  · obtain ⟨-, rfl⟩ := hobjects p o ho
    exact absurd hsl List.not_mem_nil

/-- The field is set to a static object. -/
def setCell (s : GCState) (p : ℕ) (o : Object) : Taken :=
  ⟨s, .update p 0 (2 ^ 12 + 8) true, [p],
    (s.updateCards amd64 [p]).write p (o.store 0 (2 ^ 12 + 8))⟩

/-- A new object, at a pointer. -/
def newCell : Taken :=
  ⟨startState, .allocate, [], { startState.write (2 ^ 16 + 88) (cell .heap bogusObjptr) with
    frontier := 2 ^ 16 + 96 }⟩

def newStackCell : Taken :=
  ⟨startState, .allocateStack, [], { startState.write (2 ^ 30 + 8) (cell .stack bogusObjptr) with
    regionTop := 2 ^ 30 + 8 + 8 }⟩

theorem cell_held {s : GCState} (m : Mode) : ∀ sl ∈ (cell m bogusObjptr).slots, s.Held sl.2 := by
  intro sl hsl hptr
  obtain rfl := List.mem_singleton.mp hsl
  exact absurd hptr (by decide)

theorem setCell_step {s : GCState} {p : ℕ} {m : Mode} (h : s.objects p = some (cell m bogusObjptr))
    (hstatics : s.statics.Has (2 ^ 12 + 8)) :
    Step amd64 s (setCell s p (cell m bogusObjptr)).action [p] (setCell s p (cell m bogusObjptr)).next :=
  .update (o := cell m bogusObjptr) h nofun
    (by simp [cell]) (fun _ => .inr (.inr hstatics))

theorem newCell_run : Run amd64 startState
    [newCell, setCell newCell.next (2 ^ 16 + 88) (cell .heap bogusObjptr)]
    (setCell newCell.next (2 ^ 16 + 88) (cell .heap bogusObjptr)).next :=
  .step (.step .start (.allocate (by decide) (by decide) (by decide) (by decide) (cell_held .heap)))
    (setCell_step rfl (by decide))

theorem newStackCell_run : Run amd64 startState
    [newStackCell, setCell newStackCell.next (2 ^ 30 + 8) (cell .stack bogusObjptr)]
    (setCell newStackCell.next (2 ^ 30 + 8) (cell .stack bogusObjptr)).next :=
  .step (.step .start (.allocateStack rfl rfl (by decide) (by decide) (cell_held .stack)))
    (setCell_step rfl (by decide))

end Sample

/-- The marks of a run with an object in the nursery. -/
theorem marks_in_range_iff_newCell : startState.Complete amd64 ∧
    ∀ st ∈ [newCell, setCell newCell.next (2 ^ 16 + 88) (cell .heap bogusObjptr)],
      st.next.Complete amd64 ∧ st.InRange amd64 := by
  refine (marks_in_range_iff startState_initial newCell_run).mpr fun st hst => ?_
  obtain rfl | hst := List.mem_cons.mp hst
  · rintro ⟨base, offset, v, o, heq, -⟩
    cases heq
  · obtain rfl := List.mem_singleton.mp hst
    rintro ⟨base, offset, v, o, heq, ho, hmode⟩
    cases heq
    cases ho
    cases hmode

/-- **An update of an object of mode `stack`** writes a byte that is not in the card map, for a pointer
that is not in the heap. -/
theorem newStackCell_out_of_range : GCState.Initial amd64 startState ∧ ∃ l s,
    Run amd64 startState l s ∧ ∃ st ∈ l, ∃ p ∈ st.marks, ¬ st.next.heap.Contains p ∧
      st.next.regionBuffer.Has p ∧
      ¬ st.next.heap.InCardMap amd64 (st.next.heap.pointerToCardMapAddr amd64 p) :=
  ⟨startState_initial, _, _, newStackCell_run, _, List.mem_cons_of_mem _ (List.mem_singleton_self _), _,
    List.mem_singleton_self _, by decide, by decide, by decide⟩

end Runs

end MLton.Runtime
