import MLton.Runtime.RegionBuffer

/-!
# Runtime/RegionWalk — walking over the region buffer

`foreachObjptrInRegionBuffer` goes through the buffer as if it were one object after the other.  After a
run it does what it is for exactly if no region is open and none of the objects is left
(`walkedRight_iff`): it takes a stored base for a header, and after an object it takes the gap for one.
The argument is that a walk which reads no header but those of the objects can never stop, because the end
of each object is below the top.
-/

namespace MLton.Runtime.Layout

variable {σ : Type} (L : Layout) (f : ForeachObjptrClosure σ)

/-- `foreachObjptrInRegionBuffer`. -/
def foreachObjptrInRegionBuffer (skipWeaks : Bool) (n : ℕ) (s : RegionState) (st : σ) :
    Option (Walk σ × ℕ) :=
  let front := L.alignFrontier s.regionBuffer
  let back := s.regionTop
  L.foreachObjptrInRange f (fun _ => back) skipWeaks n front back ⟨st, [], [], []⟩

/-- The addresses of the pointers in an object. -/
def slotsOf (o : Placed) : List ℕ := L.objptrs (o.objptr + o.type.bytesNonObjptrs) o.type.numObjptrs

/-- **The walk is right**: it ends at the top, it reads the header of each object in an open region and no
other word as a header, it looks at each of their pointer fields once and at nothing else, and it applies
the closure where there is an object pointer. -/
def WalkedRight (skipWeaks : Bool) (s : RegionState) (regions : List (List Placed)) (st : σ) : Prop :=
  ∃ n w, L.foreachObjptrInRegionBuffer f skipWeaks n s st = some (w, s.regionTop) ∧
    w.headers.Perm (regions.flatten.map fun o => o.objptr - L.wordSize) ∧
    w.slots.Perm (regions.flatten.flatMap L.slotsOf) ∧
    w.applied.Perm ((regions.flatten.flatMap L.slotsOf).filter fun a => isObjptr (L.word s.memory a))

/-- In the buffer, the closure only stores to the slot it is applied to. -/
def StoresToSlot (s : RegionState) : Prop :=
  ∀ opp st a, s.regionBuffer ≤ a → a < s.regionTop → a < opp ∨ opp + L.wordSize ≤ a →
    f.memory (f.apply opp st) a = f.memory st a

/-! ## What a walk reads -/

variable {L f} {w w' : Walk σ} {n front b p e : ℕ} {skipWeaks : Bool} {opps : List ℕ}

@[simp] theorem headers_callIfIsObjptr {opp : ℕ} :
    (L.callIfIsObjptr f w opp).headers = w.headers := by
  unfold callIfIsObjptr
  split <;> rfl

@[simp] theorem headers_callEach : ∀ (opps : List ℕ) (w : Walk σ),
    (L.callEach f opps w).headers = w.headers
  | [], _ => rfl
  | _ :: opps, _ => (headers_callEach opps _).trans headers_callIfIsObjptr

theorem headers_foreachFrame {bottom : ℕ} : ∀ {n top : ℕ} {w w' : Walk σ},
    L.foreachFrame f bottom n top w = some w' → w'.headers = w.headers
  | 0, top, w, w', h => by
      rw [foreachFrame] at h
      split at h
      · exact absurd h (by simp)
      · rw [Option.some.inj h]
  | n + 1, top, w, w', h => by
      rw [foreachFrame] at h
      split at h
      · obtain ⟨frameInfo, -, hrest⟩ := Option.bind_eq_some_iff.mp h
        exact (headers_foreachFrame hrest).trans (headers_callEach _ _)
      · rw [Option.some.inj h]

/-- **In an object, one header is read.** -/
theorem headers_foreachObjptrInObject (h : L.foreachObjptrInObject f skipWeaks p w = some (w', e)) :
    w'.headers = w.headers ++ [p - L.wordSize] := by
  obtain ⟨ty, -, h⟩ := Option.bind_eq_some_iff.mp h
  split at h
  · obtain ⟨rfl, -⟩ := Prod.mk.inj (Option.some.inj h)
    exact headers_callEach _ _
  · split at h
    · obtain ⟨rfl, -⟩ := Prod.mk.inj (Option.some.inj h)
      split <;> simp
    · obtain ⟨rfl, -⟩ := Prod.mk.inj (Option.some.inj h)
      rfl
  · obtain ⟨rfl, -⟩ := Prod.mk.inj (Option.some.inj h)
    split
    · rfl
    · split <;> exact headers_callEach _ _
  · obtain ⟨w₁, hw₁, h⟩ := Option.bind_eq_some_iff.mp h
    obtain ⟨rfl, -⟩ := Prod.mk.inj (Option.some.inj h)
    exact headers_foreachFrame hw₁

/-- **A walk forgets no header.** -/
theorem headers_foreachObjptrInRange {back : σ → ℕ} : ∀ {n front b : ℕ} {w : Walk σ},
    L.foreachObjptrInRange f back skipWeaks n front b w = some (w', e) → w.headers ⊆ w'.headers
  | 0, _, _, _, h => absurd h (by simp [foreachObjptrInRange])
  | n + 1, front, b, w, h => by
      rw [foreachObjptrInRange] at h
      split at h
      · obtain ⟨⟨w₁, front₁⟩, hobject, hrest⟩ := Option.bind_eq_some_iff.mp h
        have hsub := headers_foreachObjptrInRange hrest
        rw [headers_foreachObjptrInObject hobject] at hsub
        exact List.Subset.trans (List.subset_append_left _ _) hsub
      · split at h
        · exact headers_foreachObjptrInRange h
        · obtain ⟨rfl, -⟩ := Prod.mk.inj (Option.some.inj h)
          exact List.Subset.refl _

/-- **In a normal object**, the walk goes to the end of its data. -/
theorem foreachObjptrInObject_normal {ty : ObjectType}
    (hheader : L.splitHeader (L.getHeader (f.memory w.state) p) = some ty) (htag : ty.tag = .normal) :
    L.foreachObjptrInObject f skipWeaks p w =
      some (L.callEach f (L.objptrs (p + ty.bytesNonObjptrs) ty.numObjptrs)
        { w with headers := w.headers ++ [p - L.wordSize] }, p + L.bytesOf ty) := by
  simp [foreachObjptrInObject, hheader, htag, bytesOf, Nat.add_assoc]

/-! ## A walk over the buffer -/

variable {s : RegionState} {regions : List (List Placed)} {st : σ} {mapped base : ℕ}

/-- The closures of an object leave what is not in its data. -/
theorem StoresToSlot.callEach (hf : L.StoresToSlot f s) (lo hi : ℕ) {a : ℕ} (hlo : s.regionBuffer ≤ a)
    (hhi : a < s.regionTop) (hout : a < lo ∨ hi ≤ a) : ∀ {opps : List ℕ} {w : Walk σ},
    (∀ opp ∈ opps, lo ≤ opp ∧ opp + L.wordSize ≤ hi) →
    f.memory (L.callEach f opps w).state a = f.memory w.state a
  | [], _, _ => rfl
  | opp :: opps, w, hopps => by
      refine (StoresToSlot.callEach hf lo hi hlo hhi hout fun o ho => hopps o (List.mem_cons_of_mem _ ho)).trans ?_
      have hin := hopps opp List.mem_cons_self
      unfold callIfIsObjptr
      split
      · exact hf opp w.state a hlo hhi (by omega)
      · rfl

/-- **A walk that reads no header but those of the objects does not stop.** -/
theorem Laid.not_ends {m : Memory} (h : L.Laid s.regionBuffer m regions base s.regionTop)
    (hf : L.StoresToSlot f s) : ∀ {n front : ℕ} {w : Walk σ}, front < s.regionTop →
    (∀ o ∈ regions.flatten, L.splitHeader (L.getHeader (f.memory w.state) o.objptr) = some o.type) →
    L.foreachObjptrInRange f (fun _ => s.regionTop) skipWeaks n front s.regionTop w = some (w', e) →
    ¬ ∀ a ∈ w'.headers, ∃ o ∈ regions.flatten, a = o.objptr - L.wordSize
  | 0, _, _, _, _, hwalk, _ => absurd hwalk (by simp [foreachObjptrInRange])
  | n + 1, front, w, hfront, hheaders, hwalk, hright => by
      rw [foreachObjptrInRange, if_pos hfront] at hwalk
      obtain ⟨⟨w₁, front₁⟩, hobject, hrest⟩ := Option.bind_eq_some_iff.mp hwalk
      have hread := headers_foreachObjptrInObject hobject
      have hmem : L.advanceToObjectData (f.memory w.state) front - L.wordSize ∈ w₁.headers := by
        rw [hread]
        exact List.mem_append_right _ List.mem_cons_self
      obtain ⟨o, ho, hat⟩ := hright _ (headers_foreachObjptrInRange hrest hmem)
      obtain ⟨hlo, hhi, htag, -⟩ := h.object_lt ho
      have hp : L.wordSize ≤ L.advanceToObjectData (f.memory w.state) front := by
        simp only [advanceToObjectData, sequenceMetaDataSize, normalMetaDataSize]
        split <;> omega
      have hobj : L.advanceToObjectData (f.memory w.state) front = o.objptr := by omega
      rw [hobj, foreachObjptrInObject_normal (hheaders o ho) htag] at hobject
      obtain ⟨rfl, rfl⟩ := Prod.mk.inj (Option.some.inj hobject)
      have hpos := L.wordSize_pos
      refine Laid.not_ends h hf (by omega) (fun o' ho' => ?_) hrest hright
      -- The header of an object is not in the data of this one.
      rw [← hheaders o' ho']
      obtain ⟨hlo', hhi', -, -⟩ := h.object_lt ho'
      have hdisjoint := h.disjoint ho ho'
      refine congrArg L.splitHeader (Memory.Agree.read_eq fun a hal hau => ?_)
      refine hf.callEach o.objptr (o.objptr + L.bytesOf o.type) (by omega) (by omega)
        (by omega) fun opp hopp => ?_
      obtain ⟨i, hi, rfl⟩ := L.mem_objptrs.mp hopp
      have hmul : (i + 1) * L.wordSize ≤ o.type.numObjptrs * L.wordSize := Nat.mul_le_mul_right _ hi
      rw [Nat.succ_mul] at hmul
      simp only [bytesOf]
      omega

/-- **An empty buffer is walked right**, by every closure. -/
theorem Run.walkedRight_empty (h : L.Run mapped s [[]]) : L.WalkedRight f skipWeaks s [[]] st := by
  obtain ⟨-, hbuffer, hlaid⟩ := h.laid
  have hfront : L.alignFrontier s.regionBuffer = s.regionBuffer := by rw [hbuffer, alignFrontier_alignFrontier]
  have htop := hlaid.top_eq
  refine ⟨1, ⟨st, [], [], []⟩, ?_, by simp, by simp, by simp⟩
  simp [foreachObjptrInRegionBuffer, foreachObjptrInRange, hfront, htop]

/-- **A buffer that is not empty is not walked right**, by any closure that stores to the slots only. -/
theorem Run.not_walkedRight (h : L.Run mapped s regions) (hne : regions ≠ [[]])
    (hst : f.memory st = s.memory) (hf : L.StoresToSlot f s) :
    ¬ L.WalkedRight f skipWeaks s regions st := by
  rintro ⟨n, w, hwalk, hheaders, -, -⟩
  obtain ⟨-, hbuffer, hlaid⟩ := h.laid
  have hfront : L.alignFrontier s.regionBuffer = s.regionBuffer := by rw [hbuffer, alignFrontier_alignFrontier]
  rw [foreachObjptrInRegionBuffer, hfront] at hwalk
  refine hlaid.not_ends hf (hlaid.lt_top hne) (fun o ho => ?_) hwalk fun a ha => ?_
  · simpa only [hst] using (hlaid.object_lt ho).2.2.2
  · obtain ⟨o, ho, rfl⟩ := List.mem_map.mp (hheaders.mem_iff.mp ha)
    exact ⟨o, ho, rfl⟩

/-- The closure that changes nothing. -/
def look : ForeachObjptrClosure Memory := ⟨fun _ m => m, id⟩

/-- **The region buffer is walked right exactly when it is empty.**  With any region open, or with an
object outside of every region, even a closure that stores to the slots only is led astray. -/
theorem walkedRight_iff (h : L.Run mapped s regions) :
    ((∀ (σ : Type) (f : ForeachObjptrClosure σ) (st : σ), f.memory st = s.memory →
        L.WalkedRight f skipWeaks s regions st) ↔ regions = [[]]) ∧
      (regions ≠ [[]] → ∀ (σ : Type) (f : ForeachObjptrClosure σ) (st : σ), f.memory st = s.memory →
        L.StoresToSlot f s → ¬ L.WalkedRight f skipWeaks s regions st) := by
  refine ⟨⟨fun hright => ?_, ?_⟩, fun hne σ f st hst hf => h.not_walkedRight hne hst hf⟩
  · by_contra hne
    exact h.not_walkedRight hne rfl (fun _ _ _ _ _ _ => rfl) (hright Memory look s.memory rfl)
  · rintro rfl
    exact fun σ f st _ => h.walkedRight_empty

/-! ## A cell in a region -/

/-- A program with one type of objects, a word and a pointer. -/
def cellLayout : Layout where
  alignment := 8
  frameInfos := []
  maxFrameSize := 0
  objectTypes := [⟨.normal, true, 8, 1⟩]
  returnAddressToFrameIndex := id
  wordSize := 8
  align48 := eight_allowed
  native := eight_allowed

/-- The pages that `GC_init` has mapped, cleared. -/
def mappedRegions : RegionState := cellLayout.initRegions (fun _ => 0) 4096

/-- A region is opened, and a cell is allocated that points to address 8192. -/
def openRegion : RegionState :=
  cellLayout.allocate 0 ⟨.normal, true, 8, 1⟩ [⟨0, 8, 7⟩, ⟨8, 8, 8192⟩] (cellLayout.regionPush mappedRegions)

theorem openRegion_run : cellLayout.Run 4096 openRegion [[⟨4112, ⟨.normal, true, 8, 1⟩⟩], []] :=
  .object (.push (.init (by decide)) (by decide)) (by decide) rfl rfl (by decide) (by decide)

theorem walkedRight_iff_openRegion : [[(⟨4112, ⟨.normal, true, 8, 1⟩⟩ : Placed)], []] ≠ [[]] ∧
    ¬ cellLayout.WalkedRight look true openRegion [[⟨4112, ⟨.normal, true, 8, 1⟩⟩], []]
      openRegion.memory :=
  ⟨by simp, (walkedRight_iff openRegion_run).2 (by simp) Memory look openRegion.memory rfl
    fun _ _ _ _ _ _ => rfl⟩

/-- **An open region is not walked right.** -/
theorem openRegion_not_walkedRight : ¬ ∀ (L : Layout) (mapped : ℕ) (s : RegionState)
    (regions : List (List Placed)), L.Run mapped s regions → ∀ (σ : Type) (f : ForeachObjptrClosure σ)
    (st : σ), f.memory st = s.memory → L.WalkedRight f true s regions st := fun hright =>
  openRegion_run.not_walkedRight (by simp) rfl (fun _ _ _ _ _ _ => rfl)
    (hright _ _ _ _ openRegion_run Memory look openRegion.memory rfl)

end MLton.Runtime.Layout
