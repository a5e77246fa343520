import MLton.Runtime.GCState

/-!
# Runtime/WriteBarrier — which cards are marked

Between collections, an object of the old generation with a pointer into the nursery has its card marked,
and a minor collection, which looks at no other objects of the old generation, leaves no pointer into the
nursery behind.  Every mark is of an object in the heap, and so hits the card map — unless an `Update`
stores a pointer into an object of mode `stack`: the translation marks a card for it all the same.
-/

namespace MLton.Runtime

namespace GCState

variable (T : Target) (s : GCState)

/-- The object lies in the area of its mode, with all its bytes. -/
def Placed (p : ℕ) (o : Object) : Prop :=
  (o.mode = .stack ∧ s.regionBuffer.Holds p o.size) ∨
    (o.mode ≠ .stack ∧ (s.oldGen.Holds p o.size ∨ s.nursery.Holds p o.size))

/-- Each slot of an object of the old generation that points into the nursery belongs to an object whose
card, or the card of the slot, is marked. -/
def Complete : Prop :=
  ∀ p o, s.objects p = some o → s.oldGen.Has p → ∀ sl ∈ o.slots, isObjptr sl.2 = true →
    s.nursery.Has sl.2 → s.isCardMarked T p ∨ s.isCardMarked T (p + sl.1)

/-- The areas, and how they lie. -/
structure Laid : Prop where
  wf : s.heap.WellFormed T
  oldGen : s.heap.oldGenEnd ≤ s.heap.nursery
  nursery : s.heap.nursery ≤ s.frontier
  frontier : s.frontier ≤ s.heap.limit
  whole : s.canMinor = false → s.heap.nursery = s.heap.oldGenEnd
  regionTop : s.regionBuffer.lo ≤ s.regionTop
  tops : ∀ t ∈ s.tops, s.regionBuffer.lo ≤ t
  region_apart : s.heapArea.Disjoint s.regionBuffer
  statics_apart : s.heapArea.Disjoint s.statics

/-- What holds between the steps of a run. -/
structure Inv : Prop extends Laid T s where
  placed : ∀ p o, s.objects p = some o → s.Placed p o
  values : ∀ p o, s.objects p = some o → o.mode ≠ .stack → ∀ sl ∈ o.slots, s.Points sl.2
  stackTag : ∀ p o, s.objects p = some o → o.mode = .stack → o.tag = .normal
  current : ∃ o, s.objects s.current = some o ∧ o.tag = .stack
  marked : s.isCardMarked T s.current
  complete : ∀ p o, s.objects p = some o → s.oldGen.Has p → ∀ sl ∈ o.slots, isObjptr sl.2 = true →
    s.nursery.Has sl.2 → s.isCardMarked T p

variable {T s}

theorem Inv.isComplete (h : Inv T s) : s.Complete T :=
  fun p o ho hold sl hsl hptr hnursery => .inl (h.complete p o ho hold sl hsl hptr hnursery)

/-! ## Marking -/

section Marking

variable {p q : ℕ} {ps : List ℕ}

theorem markCards_eq (T : Target) (s : GCState) (ps : List ℕ) :
    s.markCards T ps = { s with cards := (s.markCards T ps).cards } := by
  induction ps generalizing s with
  | nil => rfl
  | cons p ps ih => exact ih (s.markCard T p)

theorem isCardMarked_markCard : (s.markCard T p).isCardMarked T q ↔
    s.heap.pointerToCardMapAddr T q = s.heap.pointerToCardMapAddr T p ∨ s.isCardMarked T q := by
  unfold isCardMarked markCard
  by_cases h : s.heap.pointerToCardMapAddr T q = s.heap.pointerToCardMapAddr T p
  · simp [h]
  · simp [h, Function.update_of_ne]

theorem isCardMarked_markCards (h : s.isCardMarked T q ∨ q ∈ ps) :
    (s.markCards T ps).isCardMarked T q := by
  induction ps generalizing s with
  | nil => exact h.resolve_right List.not_mem_nil
  | cons p ps ih =>
    refine ih ?_
    obtain h | h := h
    · exact .inl (isCardMarked_markCard.mpr (.inr h))
    · obtain rfl | h := List.mem_cons.mp h
      · exact .inl (isCardMarked_markCard.mpr (.inl rfl))
      · exact .inr h

theorem Inv.markCards (h : Inv T s) (ps : List ℕ) : Inv T (s.markCards T ps) := by
  have hkeep : ∀ {q}, s.isCardMarked T q → (s.markCards T ps).isCardMarked T q :=
    fun hq => isCardMarked_markCards (.inl hq)
  rw [markCards_eq] at hkeep ⊢
  exact ⟨⟨h.wf, h.oldGen, h.nursery, h.frontier, h.whole, h.regionTop, h.tops, h.region_apart,
    h.statics_apart⟩, h.placed, h.values, h.stackTag, h.current, hkeep h.marked,
    fun p o ho hold sl hsl hptr hnur => hkeep (h.complete p o ho hold sl hsl hptr hnur)⟩

end Marking

/-! ## Areas -/

section Areas

variable {p v : ℕ} {o : Object}

theorem Laid.heap_of_oldGen (h : Laid T s) (hp : s.oldGen.Has p) : s.heapArea.Has p :=
  ⟨hp.1, hp.2.trans (h.oldGen.trans (h.nursery.trans h.frontier))⟩

theorem Laid.heap_of_nursery (h : Laid T s) (hp : s.nursery.Has p) : s.heapArea.Has p :=
  ⟨Nat.lt_of_le_of_lt ((Nat.le_add_right _ _).trans h.oldGen) hp.1, hp.2.trans h.frontier⟩

theorem Laid.not_nursery_of_oldGen (h : Laid T s) (hp : s.oldGen.Has p) : ¬ s.nursery.Has p :=
  fun hp' => absurd (hp.2.trans h.oldGen) (Nat.not_le.mpr hp'.1)

theorem Inv.points_of_held (h : Inv T s) (hv : s.Held v) : s.Points v := by
  intro hptr
  obtain ⟨o, ho⟩ | hregion | hstatic := hv hptr
  · obtain ⟨-, hregion, -⟩ | ⟨-, ⟨hold, -⟩ | ⟨hnur, -⟩⟩ := h.placed v o ho
    · exact .inr (.inr (.inl hregion))
    · exact .inl hold
    · exact .inr (.inl hnur)
  · exact .inr (.inr (.inl hregion))
  · exact .inr (.inr (.inr hstatic))

/-- An object with bytes that is not of mode `stack` is in the heap. -/
theorem Inv.contains (h : Inv T s) (ho : s.objects p = some o) (hmode : o.mode ≠ .stack)
    (hsize : 0 < o.size) : s.heap.Contains p := by
  obtain ⟨hstack, -⟩ | ⟨-, ⟨hold, hend⟩ | ⟨hnur, hend⟩⟩ := h.placed p o ho
  · exact absurd hstack hmode
  · have hin := h.heap_of_oldGen hold
    have hend : p + o.size ≤ s.heap.limit := hend.trans (h.oldGen.trans (h.nursery.trans h.frontier))
    exact ⟨hin.1.le, by omega⟩
  · have hin := h.heap_of_nursery hnur
    have hend : p + o.size ≤ s.heap.limit := hend.trans h.frontier
    exact ⟨hin.1.le, by omega⟩

theorem Inv.not_region (h : Inv T s) (ho : s.objects p = some o) (hmode : o.mode ≠ .stack) :
    ¬ s.regionBuffer.Has p := by
  obtain ⟨hstack, -⟩ | ⟨-, ⟨hold, -⟩ | ⟨hnur, -⟩⟩ := h.placed p o ho
  · exact absurd hstack hmode
  · exact h.region_apart.not_has (h.heap_of_oldGen hold)
  · exact h.region_apart.not_has (h.heap_of_nursery hnur)

/-- An object of mode `stack` is not in the heap. -/
theorem Inv.not_contains (h : Inv T s) (ho : s.objects p = some o) (hmode : o.mode = .stack)
    (hsize : 0 < o.size) : ¬ s.heap.Contains p := by
  obtain ⟨-, hregion, hend⟩ | ⟨hstack, -⟩ := h.placed p o ho
  · rintro ⟨hlo, hhi⟩
    obtain ⟨hrlo, -⟩ := hregion
    have hapart := h.region_apart
    unfold Area.Disjoint heapArea at hapart
    dsimp only at hapart
    omega
  · exact absurd hmode hstack

end Areas

/-! ## Stores -/

section Stores

variable {p q offset v : ℕ} {o o' : Object} {g : ℕ × ℕ → ℕ}

theorem write_eq_some (h : (s.write p o).objects q = some o') :
    (q = p ∧ o' = o) ∨ (q ≠ p ∧ s.objects q = some o') := by
  unfold write at h
  obtain rfl | hne := eq_or_ne q p
  · exact .inl ⟨rfl, (Option.some.inj (by simpa using h)).symm⟩
  · exact .inr ⟨hne, by simpa [Function.update_of_ne hne] using h⟩

/-- **A store** into an object whose card is marked, if the object is old and the word points into the
nursery. -/
theorem Inv.write (h : Inv T s) (ho : s.objects p = some o)
    (hpoints : o.mode ≠ .stack → ∀ sl ∈ o.slots, s.Points (g sl))
    (hmarked : ∀ sl ∈ o.slots, isObjptr (g sl) = true → s.nursery.Has (g sl) → s.oldGen.Has p →
      s.isCardMarked T p) : Inv T (s.write p (o.mapSlots g)) := by
  refine ⟨⟨h.wf, h.oldGen, h.nursery, h.frontier, h.whole, h.regionTop, h.tops, h.region_apart,
    h.statics_apart⟩, fun q o' ho' => ?_, fun q o' ho' hheap sl hsl => ?_, fun q o' ho' hmode => ?_, ?_,
    h.marked, fun q o' ho' hold sl hsl hptr hnur => ?_⟩
  · obtain ⟨rfl, rfl⟩ | ⟨-, ho'⟩ := write_eq_some ho'
    · exact h.placed q o ho
    · exact h.placed q o' ho'
  · obtain ⟨rfl, rfl⟩ | ⟨-, ho'⟩ := write_eq_some ho'
    · obtain ⟨sl', hsl', rfl⟩ := Object.mem_mapSlots.mp hsl
      exact hpoints hheap sl' hsl'
    · exact h.values q o' ho' hheap sl hsl
  · obtain ⟨rfl, rfl⟩ | ⟨-, ho'⟩ := write_eq_some ho'
    · exact h.stackTag q o ho hmode
    · exact h.stackTag q o' ho' hmode
  · obtain ⟨o', ho', htag⟩ := h.current
    by_cases hcurrent : s.current = p
    · obtain rfl := Option.some.inj (ho'.symm.trans (hcurrent ▸ ho))
      exact ⟨o'.mapSlots g, by simp [GCState.write, hcurrent], htag⟩
    · exact ⟨o', by simpa [GCState.write, Function.update_of_ne hcurrent] using ho', htag⟩
  · obtain ⟨rfl, rfl⟩ | ⟨-, ho'⟩ := write_eq_some ho'
    · obtain ⟨sl', hsl', rfl⟩ := Object.mem_mapSlots.mp hsl
      exact hmarked sl' hsl' hptr hnur hold
    · exact h.complete q o' ho' hold sl hsl hptr hnur

theorem Inv.store (h : Inv T s) (ho : s.objects p = some o) (hv : s.Held v)
    (hmarked : (∃ sl ∈ o.slots, sl.1 = offset) → s.isCardMarked T p) :
    Inv T (s.write p (o.store offset v)) := by
  refine h.write ho (fun hheap sl hsl => ?_) fun sl hsl hptr hnur hold => ?_
  · split
    · exact h.points_of_held hv
    · exact h.values p o ho hheap sl hsl
  · by_cases heq : sl.1 = offset
    · exact hmarked ⟨sl, hsl, heq⟩
    · rw [if_neg heq] at hptr hnur
      exact h.complete p o ho hold sl hsl hptr hnur

theorem Inv.copy (h : Inv T s) {src : Object} {eltSize ds ss l : ℕ} (ho : s.objects p = some o)
    (hsrc : s.objects q = some src) (hsrc' : src.mode ≠ .stack)
    (hmarked : o.slots ≠ [] → 0 < l → s.isCardMarked T p) :
    Inv T (s.write p (o.copy src eltSize ds ss l)) := by
  refine h.write ho (fun hheap sl hsl => ?_) fun sl hsl hptr hnur hold => ?_
  · split
    · obtain hbogus | ⟨sl', hsl', heq⟩ := src.load_mem (sl.1 - eltSize * ds + eltSize * ss)
      · rw [hbogus]
        exact fun hptr => absurd hptr (by decide)
      · exact heq ▸ h.values q src hsrc hsrc' sl' hsl'
    · exact h.values p o ho hheap sl hsl
  · by_cases hin : eltSize * ds ≤ sl.1 ∧ sl.1 < eltSize * (ds + l)
    · refine hmarked (List.ne_nil_of_mem hsl) (Nat.pos_of_ne_zero fun hl => ?_)
      rw [hl, Nat.add_zero] at hin
      exact absurd hin.1 (Nat.not_le.mpr hin.2)
    · rw [if_neg hin] at hptr hnur
      exact h.complete p o ho hold sl hsl hptr hnur

end Stores

/-! ## Allocation -/

section Allocation

variable {p : ℕ} {o : Object} {s' : GCState}

/-- The areas of the heap grow into where nothing was. -/
structure Grows (s s' : GCState) : Prop where
  region : s'.regionBuffer = s.regionBuffer
  statics : s'.statics = s.statics
  start : s'.heap.start = s.heap.start
  size : s'.heap.size = s.heap.size
  current : s'.current = s.current
  cards : s'.cards = s.cards
  oldGen : s.heap.oldGenEnd ≤ s'.heap.oldGenEnd
  nursery : s'.heap.nursery = s.heap.nursery
  frontier : s.frontier ≤ s'.frontier

theorem Grows.points (h : Grows s s') {v : ℕ} (hv : s.Points v) : s'.Points v := by
  intro hptr
  obtain hold | hnur | hregion | hstatic := hv hptr
  · exact .inl ⟨h.start.trans_lt hold.1, hold.2.trans h.oldGen⟩
  · exact .inr (.inl ⟨h.nursery.trans_lt hnur.1, hnur.2.trans h.frontier⟩)
  · exact .inr (.inr (.inl (h.region.symm ▸ hregion)))
  · exact .inr (.inr (.inr (h.statics.symm ▸ hstatic)))

theorem Grows.placed (h : Grows s s') {q : ℕ} {o : Object} (hq : s.Placed q o) : s'.Placed q o := by
  obtain ⟨hmode, hregion, hend⟩ | ⟨hmode, ⟨hold, hend⟩ | ⟨hnur, hend⟩⟩ := hq
  · exact .inl ⟨hmode, h.region.symm ▸ hregion, h.region.symm ▸ hend⟩
  · exact .inr ⟨hmode, .inl ⟨⟨h.start.trans_lt hold.1, hold.2.trans h.oldGen⟩, hend.trans h.oldGen⟩⟩
  · exact .inr ⟨hmode, .inr ⟨⟨h.nursery.trans_lt hnur.1, hnur.2.trans h.frontier⟩,
      hend.trans h.frontier⟩⟩

theorem Grows.isCardMarked (h : Grows s s') {q : ℕ} : s'.isCardMarked T q ↔ s.isCardMarked T q := by
  simp only [GCState.isCardMarked, Heap.pointerToCardMapAddr, Heap.cardMapAbsolute, Heap.cardMap, h.cards,
    h.start, h.size]

/-- What pointed somewhere before the nursery grew does not point to what is new in it. -/
theorem Inv.nursery_of_points (h : Inv T s) (hgrows : Grows s s') (hlaid : Laid T s') {v : ℕ}
    (hv : s.Points v) (hptr : isObjptr v = true) (hnur : s'.nursery.Has v) : s.nursery.Has v := by
  have hheap := hlaid.heap_of_nursery hnur
  obtain hold | hnur' | hregion | hstatic := hv hptr
  · exact absurd (hold.2.trans (h.oldGen.trans hgrows.nursery.ge)) (Nat.not_le.mpr hnur.1)
  · exact hnur'
  · exact absurd (hgrows.region.symm ▸ hregion) (hlaid.region_apart.not_has hheap)
  · exact absurd (hgrows.statics.symm ▸ hstatic) (hlaid.statics_apart.not_has hheap)

/-- **Allocation** of an object that points to no nursery, if it is old. -/
theorem Inv.allocate (h : Inv T s) (hgrows : Grows s s') (hlaid : Laid T s')
    (hobjects : s'.objects = (s.write p o).objects) (hplaced : s'.Placed p o)
    (hvalues : ∀ sl ∈ o.slots, s'.Points sl.2) (hstack : o.mode = .stack → o.tag = .normal)
    (hfresh : s.current ≠ p)
    (hold : s'.oldGen.Has p → ∀ sl ∈ o.slots, isObjptr sl.2 = true → ¬ s'.nursery.Has sl.2) :
    Inv T s' := by
  refine ⟨hlaid, fun q o' ho' => ?_, fun q o' ho' hheap sl hsl => ?_, fun q o' ho' hmode => ?_, ?_, ?_,
    fun q o' ho' hold' sl hsl hptr hnur => ?_⟩
  · obtain ⟨rfl, rfl⟩ | ⟨-, ho'⟩ := write_eq_some (hobjects ▸ ho')
    · exact hplaced
    · exact hgrows.placed (h.placed q o' ho')
  · obtain ⟨rfl, rfl⟩ | ⟨-, ho'⟩ := write_eq_some (hobjects ▸ ho')
    · exact hvalues sl hsl
    · exact hgrows.points (h.values q o' ho' hheap sl hsl)
  · obtain ⟨rfl, rfl⟩ | ⟨-, ho'⟩ := write_eq_some (hobjects ▸ ho')
    · exact hstack hmode
    · exact h.stackTag q o' ho' hmode
  · obtain ⟨o', ho', htag⟩ := h.current
    exact ⟨o', by rw [hgrows.current, hobjects, GCState.write]; simpa [Function.update_of_ne hfresh], htag⟩
  · rw [hgrows.isCardMarked, hgrows.current]
    exact h.marked
  · obtain ⟨rfl, rfl⟩ | ⟨-, ho'⟩ := write_eq_some (hobjects ▸ ho')
    · exact absurd hnur (hold hold' sl hsl hptr)
    rw [hgrows.isCardMarked]
    -- the object was in the old generation before
    obtain ⟨-, hregion, -⟩ | ⟨hheap, hin⟩ := h.placed q o' ho'
    · exact absurd (hgrows.region.symm ▸ hregion)
        (hlaid.region_apart.not_has (hlaid.heap_of_oldGen hold'))
    have hbefore : s.oldGen.Has q := by
      obtain ⟨hin, -⟩ | ⟨hin, -⟩ := hin
      · exact hin
      · exact absurd (hgrows.nursery.symm ▸ hin.1) (Nat.not_lt.mpr (hold'.2.trans hlaid.oldGen))
    exact h.complete q o' ho' hbefore sl hsl hptr
      (h.nursery_of_points hgrows hlaid (h.values q o' ho' hheap sl hsl) hptr hnur)

end Allocation

/-! ## Collections -/

section Collections

variable {src dst A : Area} {fwd : ℕ → ℕ} {visited : ℕ → Object → Prop} {s' : GCState}

theorem copied_same {p : ℕ} {o o' : Object} (hvisited : visited p o → Forwarded src dst fwd o o')
    (hnot : ¬ visited p o → o' = o) : o'.mode = o.mode ∧ o'.size = o.size ∧ o'.tag = o.tag := by
  by_cases h : visited p o
  · rw [(hvisited h).1]
    exact ⟨rfl, rfl, rfl⟩
  · rw [hnot h]
    exact ⟨rfl, rfl, rfl⟩

/-- The objects of the source are in the destination, and those of the region buffer stay there. -/
theorem copied_placed (hcopied : Copied src dst fwd visited s s') (hlo : A.lo ≤ dst.lo)
    (hhi : dst.hi ≤ A.hi) (hregion : ∀ p, s.regionBuffer.Has p → ¬ src.Has p)
    (hplaced : ∀ p o, s.objects p = some o → (o.mode = .stack ∧ s.regionBuffer.Holds p o.size) ∨
      (o.mode ≠ .stack ∧ (src.Has p ∨ A.Holds p o.size))) :
    ∀ p' o', s'.objects p' = some o' → (o'.mode = .stack ∧ s.regionBuffer.Holds p' o'.size) ∨
      (o'.mode ≠ .stack ∧ A.Holds p' o'.size) := by
  intro p' o' ho'
  obtain ⟨p, o, ho, ⟨hin, hout⟩, hvisited, hnot⟩ := hcopied.objects p' o' ho'
  obtain ⟨hmode, hsize, -⟩ := copied_same hvisited hnot
  rw [hmode, hsize]
  obtain ⟨hstack, hholds⟩ | ⟨hheap, h⟩ := hplaced p o ho
  · rw [hout (hregion p hholds.1)]
    exact .inl ⟨hstack, hholds⟩
  · refine .inr ⟨hheap, ?_⟩
    by_cases hsrc : src.Has p
    · obtain ⟨-, hlt, hend⟩ := hin hsrc
      exact ⟨⟨hlo.trans_lt hlt, ((Nat.le_add_right _ _).trans hend).trans hhi⟩, hend.trans hhi⟩
    · rw [hout hsrc]
      exact h.resolve_left hsrc

/-- No pointer into the source is left in the heap, if there was none in the objects that were not
visited. -/
theorem copied_values (hcopied : Copied src dst fwd visited s s') (hlo : A.lo ≤ dst.lo)
    (hhi : dst.hi ≤ A.hi)
    (hvalues : ∀ p o, s.objects p = some o → o.mode ≠ .stack → ∀ sl ∈ o.slots, isObjptr sl.2 = true →
      src.Has sl.2 ∨ A.Has sl.2 ∨ s.regionBuffer.Has sl.2 ∨ s.statics.Has sl.2)
    (hunvisited : ∀ p o, s.objects p = some o → o.mode ≠ .stack → ¬ visited p o → ∀ sl ∈ o.slots,
      isObjptr sl.2 = true → ¬ src.Has sl.2) :
    ∀ p' o', s'.objects p' = some o' → o'.mode ≠ .stack → ∀ sl ∈ o'.slots, isObjptr sl.2 = true →
      A.Has sl.2 ∨ s.regionBuffer.Has sl.2 ∨ s.statics.Has sl.2 := by
  intro p' o' ho' hheap sl hsl hptr
  obtain ⟨p, o, ho, -, hvisited, hnot⟩ := hcopied.objects p' o' ho'
  have hheap : o.mode ≠ .stack := (copied_same hvisited hnot).1 ▸ hheap
  by_cases hv : visited p o
  · obtain ⟨rfl, hfwd⟩ := hvisited hv
    obtain ⟨sl, hmem, rfl⟩ := Object.mem_mapSlots.mp hsl
    by_cases hmoved : isObjptr sl.2 = true ∧ src.Has sl.2
    · have hdst := hfwd sl hmem hmoved.1 hmoved.2
      rw [if_pos hmoved]
      exact .inl ⟨hlo.trans_lt hdst.1, hdst.2.trans hhi⟩
    · rw [if_neg hmoved] at hptr ⊢
      exact (hvalues p o ho hheap sl hmem hptr).resolve_left fun hsrc => hmoved ⟨hptr, hsrc⟩
  · obtain rfl := hnot hv
    exact (hvalues p o' ho hheap sl hsl hptr).resolve_left (hunvisited p o' ho hheap hv sl hsl hptr)

theorem copied_stackTag (hcopied : Copied src dst fwd visited s s')
    (h : ∀ p o, s.objects p = some o → o.mode = .stack → o.tag = .normal) :
    ∀ p' o', s'.objects p' = some o' → o'.mode = .stack → o'.tag = .normal := by
  intro p' o' ho' hstack
  obtain ⟨p, o, ho, -, hvisited, hnot⟩ := hcopied.objects p' o' ho'
  obtain ⟨hmode, -, htag⟩ := copied_same hvisited hnot
  exact htag.trans (h p o ho (hmode.symm.trans hstack))

variable (T s) in
/-- What holds in the middle of a collection: the nursery is empty. -/
structure Settled : Prop where
  wf : s.heap.WellFormed T
  oldGen : s.heap.oldGenEnd ≤ s.heap.limit
  regionTop : s.regionBuffer.lo ≤ s.regionTop
  tops : ∀ t ∈ s.tops, s.regionBuffer.lo ≤ t
  region_apart : s.heapArea.Disjoint s.regionBuffer
  statics_apart : s.heapArea.Disjoint s.statics
  placed : ∀ p o, s.objects p = some o → (o.mode = .stack ∧ s.regionBuffer.Holds p o.size) ∨
    (o.mode ≠ .stack ∧ s.oldGen.Holds p o.size)
  values : ∀ p o, s.objects p = some o → o.mode ≠ .stack → ∀ sl ∈ o.slots, isObjptr sl.2 = true →
    s.oldGen.Has sl.2 ∨ s.regionBuffer.Has sl.2 ∨ s.statics.Has sl.2
  stackTag : ∀ p o, s.objects p = some o → o.mode = .stack → o.tag = .normal
  current : ∃ o, s.objects s.current = some o ∧ o.tag = .stack

/-- **A minor collection** empties the nursery: the objects that are not visited do not point into it. -/
theorem Inv.minor (h : Inv T s) (hminor : Minor T s s') : Settled T s' := by
  cases hminor with
  | join hjoin =>
    have hnursery := h.whole hjoin
    have hgrown : s.heap.start + (s.heap.oldGenSize + (s.frontier - s.heap.nursery)) = s.frontier := by
      have := h.nursery
      unfold Heap.oldGenEnd at hnursery
      omega
    have hold : s.heap.oldGenEnd ≤ s.frontier := h.oldGen.trans h.nursery
    have hstart : s.heap.start ≤ s.heap.nursery := (Nat.le_add_right _ _).trans h.oldGen
    refine ⟨⟨h.wf.start_aligned, h.wf.size_aligned, h.wf.maps⟩, hgrown.trans_le h.frontier, h.regionTop,
      h.tops, h.region_apart, h.statics_apart, fun p o ho => ?_, fun p o ho hheap sl hsl hptr => ?_,
      h.stackTag, h.current⟩
    · unfold oldGen Heap.oldGenEnd
      dsimp only
      rw [hgrown]
      obtain hregion | ⟨hmode, ⟨hin, hend⟩ | ⟨hin, hend⟩⟩ := h.placed p o ho
      · exact .inl hregion
      · exact .inr ⟨hmode, ⟨hin.1, hin.2.trans hold⟩, hend.trans hold⟩
      · exact .inr ⟨hmode, ⟨hstart.trans_lt hin.1, hin.2⟩, hend⟩
    · unfold oldGen Heap.oldGenEnd
      dsimp only
      rw [hgrown]
      obtain hin | hin | hout := h.values p o ho hheap sl hsl hptr
      · exact .inl ⟨hin.1, hin.2.trans hold⟩
      · exact .inl ⟨hstart.trans_lt hin.1, hin.2⟩
      · exact .inr hout
  | @copy s' fwd walked bytesCopied _ hbytes hcopied hs' =>
    have hold := h.oldGen
    have hnursery := h.nursery
    have hfrontier := h.frontier
    have hgrown : s.heap.oldGenEnd + bytesCopied ≤ s.heap.limit := by omega
    have hhi : s.heap.oldGenEnd + bytesCopied = s.heap.start + (s.heap.oldGenSize + bytesCopied) :=
      Nat.add_assoc _ _ _
    have hplaced := copied_placed (A := ⟨s.heap.start, s.heap.oldGenEnd + bytesCopied⟩) hcopied
      (Nat.le_add_right _ _) le_rfl
      (fun p hp hn => h.region_apart.not_has (h.heap_of_nursery hn) hp) fun p o ho => by
        obtain hregion | ⟨hmode, ⟨hin, hend⟩ | ⟨hin, hend⟩⟩ := h.placed p o ho
        · exact .inl hregion
        · exact .inr ⟨hmode, .inr ⟨⟨hin.1, hin.2.trans (Nat.le_add_right _ _)⟩,
            hend.trans (Nat.le_add_right _ _)⟩⟩
        · exact .inr ⟨hmode, .inl hin⟩
    have hvalues := copied_values (A := ⟨s.heap.start, s.heap.oldGenEnd + bytesCopied⟩) hcopied
      (Nat.le_add_right _ _) le_rfl
      (fun p o ho hheap sl hsl hptr => by
        obtain hin | hin | hout := h.values p o ho hheap sl hsl hptr
        · exact .inr (.inl ⟨hin.1, hin.2.trans (Nat.le_add_right _ _)⟩)
        · exact .inl hin
        · exact .inr (.inr hout))
      fun p o ho hheap hunvisited sl hsl hptr hnur => by
        refine hunvisited ⟨fun hregion => ?_, fun hin => .inl (h.complete p o ho hin sl hsl hptr hnur)⟩
        exact absurd hregion (h.not_region ho hheap)
    have hstackTag := copied_stackTag hcopied h.stackTag
    rw [hs']
    rw [hhi] at hgrown hplaced hvalues
    exact ⟨⟨h.wf.start_aligned, h.wf.size_aligned, h.wf.maps⟩, hgrown, h.regionTop, h.tops,
      h.region_apart, h.statics_apart, hplaced, hvalues, hstackTag,
      hcopied.current⟩

/-- **A major collection** moves the objects of the heap to a new heap. -/
theorem Settled.major (h : Settled T s) (hmajor : Major T s s') : Settled T s' := by
  cases hmajor with
  | @mk fwd walked heap hwf hend hregion hstatics hcopied hs' =>
    have hin : ∀ {p}, s.oldGen.Has p → s.heapArea.Has p := fun hp => ⟨hp.1, hp.2.trans h.oldGen⟩
    have hplaced := copied_placed (A := ⟨heap.start, heap.oldGenEnd⟩) hcopied le_rfl le_rfl
      (fun p hp hold => h.region_apart.not_has (hin hold) hp) fun p o ho => by
        obtain hout | ⟨hmode, hold, -⟩ := h.placed p o ho
        · exact .inl hout
        · exact .inr ⟨hmode, .inl hold⟩
    have hvalues := copied_values (A := ⟨heap.start, heap.oldGenEnd⟩) hcopied le_rfl le_rfl
      (fun p o ho hheap sl hsl hptr => (h.values p o ho hheap sl hsl hptr).imp id .inr)
      fun p o ho hheap hunvisited _ _ _ _ => hunvisited fun hregion => by
        obtain ⟨hmode, -⟩ | ⟨-, hold, -⟩ := h.placed p o ho
        · exact absurd hmode hheap
        · exact absurd hregion (h.region_apart.not_has (hin hold))
    have hstackTag := copied_stackTag hcopied h.stackTag
    rw [hs']
    exact ⟨hwf, hend, h.regionTop, h.tops, hregion, hstatics, hplaced, hvalues, hstackTag, hcopied.current⟩

theorem setHeap_eq {requested : ℕ} (hset : SetHeap T s requested s') :
    ∃ nursery canMinor cards, s' = { s with
      heap := { s.heap with nursery := nursery }
      canMinor := canMinor
      cards := cards
      frontier := nursery } ∧
      s.heap.oldGenEnd + requested ≤ nursery ∧ nursery ≤ s.heap.limit ∧
      (canMinor = false → nursery = s.heap.oldGenEnd + requested) := by
  cases hset with
  | generational hlo hhi => exact ⟨_, _, _, rfl, hlo, hhi, nofun⟩
  | whole hhi => exact ⟨_, _, _, rfl, le_rfl, hhi, fun _ => rfl⟩

/-- **The end of a collection**: the nursery is empty, and the current stack is marked. -/
theorem Settled.fills {requested : ℕ} {s₁ : GCState} {ps : List ℕ} (h : Settled T s)
    (hset : SetHeap T s requested s₁) (hfills : Fills s₁ requested s') (hps : s'.current ∈ ps) :
    Inv T (s'.markCards T ps) := by
  have hmarked : (s'.markCards T ps).isCardMarked T s'.current := isCardMarked_markCards (.inr hps)
  rw [markCards_eq] at hmarked ⊢
  obtain ⟨nursery, canMinor, cards, rfl, hlo, hhi, hwhole⟩ := setHeap_eq hset
  obtain ⟨hstate, hobjects, hcurrent⟩ := hfills
  have hend : s.heap.start + (s.heap.oldGenSize + requested) = s.heap.oldGenEnd + requested :=
    (Nat.add_assoc _ _ _).symm
  have hgrown : ∀ {p}, s.heap.oldGenEnd < p → p ≤ s.heap.oldGenEnd + requested → s'.oldGen.Has p := by
    intro p hlt hle
    rw [hstate]
    exact ⟨(Nat.le_add_right _ _).trans_lt hlt, hle.trans hend.ge⟩
  have hmore : s.heap.oldGenEnd ≤ s'.heap.oldGenEnd := by
    rw [hstate]
    exact (Nat.le_add_right _ _).trans hend.ge
  have hkept : ∀ {p}, s.oldGen.Has p → s'.oldGen.Has p := by
    intro p hp
    refine ⟨?_, hp.2.trans hmore⟩
    rw [hstate]
    exact hp.1
  have hempty : ∀ v, ¬ s'.nursery.Has v := by
    intro v
    rw [hstate]
    exact fun hv => absurd hv.2 (Nat.not_le.mpr hv.1)
  have hregion : s'.regionBuffer = s.regionBuffer := by rw [hstate]
  have hstatics : s'.statics = s.statics := by rw [hstate]
  have hvalue : ∀ {p o sl}, s.objects p = some o → o.mode ≠ .stack → sl ∈ o.slots →
      s'.Points sl.2 := by
    intro p o sl ho hheap hsl hptr
    obtain hold | hbuffer | hstatic := h.values p o ho hheap sl hsl hptr
    · exact .inl (hkept hold)
    · exact .inr (.inr (.inl (hregion ▸ hbuffer)))
    · exact .inr (.inr (.inr (hstatics ▸ hstatic)))
  have hshape : ∀ {o o₀ : Object}, (o = o₀ ∨ ∃ offset q, Area.Has ⟨s.heap.oldGenEnd,
      s.heap.oldGenEnd + requested⟩ q ∧ o = o₀.store offset q) →
      o.mode = o₀.mode ∧ o.size = o₀.size ∧ o.tag = o₀.tag := by
    rintro o o₀ (rfl | ⟨offset, q, -, rfl⟩)
    · exact ⟨rfl, rfl, rfl⟩
    · exact ⟨rfl, rfl, rfl⟩
  refine ⟨?_, fun p o ho => ?_, fun p o ho hheap sl hsl => ?_, fun p o ho hmode => ?_, hcurrent, hmarked,
    fun p o _ _ sl _ _ hnur => absurd hnur (hempty sl.2)⟩
  · rw [hstate]
    exact ⟨⟨h.wf.start_aligned, h.wf.size_aligned, h.wf.maps⟩, hend.trans_le hlo, le_rfl, hhi,
      fun hcan => (hwhole hcan).trans hend.symm, h.regionTop, h.tops, h.region_apart, h.statics_apart⟩
  · obtain ⟨o₀, ho₀, hsame⟩ | ⟨hmode, hlt, hle, -⟩ := hobjects p o ho
    · obtain ⟨hmode, hsize, -⟩ := hshape hsame
      rw [GCState.Placed, hmode, hsize]
      obtain ⟨hstack, hbuffer⟩ | ⟨hheap, hold, hbytes⟩ := h.placed p o₀ ho₀
      · exact .inl ⟨hstack, hregion ▸ hbuffer⟩
      · exact .inr ⟨hheap, .inl ⟨hkept hold, hbytes.trans hmore⟩⟩
    · exact .inr ⟨hmode, .inl ⟨hgrown hlt ((Nat.le_add_right _ _).trans hle), by rw [hstate]; exact hle.trans hend.ge⟩⟩
  · obtain ⟨o₀, ho₀, rfl | ⟨offset, q, hq, rfl⟩⟩ | ⟨-, -, -, hslots⟩ := hobjects p o ho
    · exact hvalue ho₀ hheap hsl
    · obtain ⟨sl, hmem, rfl⟩ := Object.mem_mapSlots.mp hsl
      dsimp only
      split
      · exact fun _ => .inl (hgrown hq.1 hq.2)
      · exact hvalue ho₀ hheap hmem
    · obtain hbogus | ⟨p₀, o₀, ho₀, htag, sl₀, hsl₀, heq⟩ := hslots sl hsl
      · rw [hbogus]
        exact fun hptr => absurd hptr (by decide)
      · refine heq ▸ hvalue ho₀ (fun hmode => ?_) hsl₀
        exact absurd ((h.stackTag p₀ o₀ ho₀ hmode).symm.trans htag) nofun
  · obtain ⟨o₀, ho₀, hsame⟩ | ⟨hheap, -⟩ := hobjects p o ho
    · obtain ⟨hmode', -, htag⟩ := hshape hsame
      exact htag.trans (h.stackTag p o₀ ho₀ (hmode'.symm.trans hmode))
    · exact absurd hmode hheap

end Collections

end GCState

end MLton.Runtime
