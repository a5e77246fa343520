import MLton.Runtime.ObjectLayout

/-!
# Runtime/HeapWalk — walking over the objects of a heap

The objects of a heap stand one behind the other, and where they are depends on words that are not object
pointers: headers, lengths, sizes of stacks and return addresses.  A heap that is laid out so (`LaidOut`), in
offsets from its start, is walked over in the same way wherever it is, by every closure that leaves these words
alone: `foreachObjptrInRange` looks at each slot once (`foreachObjptrInRange_spec`).

`translateHeap` is such a walk.  When a heap has moved, each object pointer into it is moved by the difference of
the two starts (`translateHeap_spec`).
-/

namespace MLton.Runtime.Layout

variable (L : Layout)

/-! ## Objects, in offsets from the start of the heap -/

/-- The frames between the bottom and the top of a stack: the slots in them, and the words that say so. -/
inductive Frames (m : Memory) (bottom : ℕ) : ℕ → List ℕ → List ℕ → Prop
  | bottom : Frames m bottom bottom [] []
  | frame {top : ℕ} {frameInfo : FrameInfo} {slots reads : List ℕ} : bottom < top → 0 < frameInfo.size →
      bottom + frameInfo.size ≤ top →
      L.frameInfos[L.returnAddressToFrameIndex (L.word m (top - L.wordSize))]? = some frameInfo →
      Frames m bottom (top - frameInfo.size) slots reads →
      Frames m bottom top (frameInfo.offsets.map (top - frameInfo.size + ·) ++ slots) ((top - L.wordSize) :: reads)

/-- The slots of the elements of a sequence. -/
def sequenceSlots (ty : ObjectType) (p numElements : ℕ) : List ℕ :=
  if 0 = ty.numObjptrs then []
  else if 0 = ty.bytesNonObjptrs then L.objptrs p (numElements * ty.numObjptrs)
  else (List.range numElements).flatMap fun i => L.objptrs (p + i * L.bytesOf ty + ty.bytesNonObjptrs) ty.numObjptrs

/-- An object: its slots, the words that say where they are, and its end. -/
inductive ObjectAt (m : Memory) (p : ℕ) : List ℕ → List ℕ → ℕ → Prop
  | normal {ty : ObjectType} : L.splitHeader (L.getHeader m p) = some ty → ty.tag = .normal →
      ObjectAt m p (L.objptrs (p + ty.bytesNonObjptrs) ty.numObjptrs) [p - L.wordSize] (p + L.bytesOf ty)
  | weak {ty : ObjectType} : L.splitHeader (L.getHeader m p) = some ty → ty.tag = .weak → 1 = ty.numObjptrs →
      ObjectAt m p [p + ty.bytesNonObjptrs] [p - L.wordSize] (p + ty.bytesNonObjptrs + L.wordSize)
  | weakGone {ty : ObjectType} : L.splitHeader (L.getHeader m p) = some ty → ty.tag = .weak → 1 ≠ ty.numObjptrs →
      ObjectAt m p [] [p - L.wordSize] (p + ty.bytesNonObjptrs)
  | sequence {ty : ObjectType} : L.splitHeader (L.getHeader m p) = some ty → ty.tag = .sequence →
      L.wordSize + L.wordSize ≤ p →
      ObjectAt m p (L.sequenceSlots ty p (L.getSequenceLength m p)) [p - L.wordSize, p - L.wordSize - L.wordSize]
        (p + L.alignWithExtra (L.getSequenceLength m p * L.bytesOf ty) L.sequenceMetaDataSize)
  | stack {ty : ObjectType} {slots reads : List ℕ} : L.splitHeader (L.getHeader m p) = some ty → ty.tag = .stack →
      L.Frames m (L.getStackBottom p) (L.getStackTop m p) slots reads →
      ObjectAt m p slots ((p - L.wordSize) :: (p + 2 * L.wordSize) :: (p + 3 * L.wordSize) :: reads)
        (p + (L.sizeofStack + L.getStackReserved m p))

/-- **A heap is laid out**: one object behind the other up to the back. -/
inductive LaidOut (m : Memory) (back : ℕ) : ℕ → List ℕ → List ℕ → Prop
  | nil : LaidOut m back back [] []
  | object {front e : ℕ} {slots reads slots' reads' : List ℕ} : front < back →
      L.ObjectAt m (L.advanceToObjectData m front) slots reads e → LaidOut m back e slots' reads' →
      LaidOut m back front (slots ++ slots') (front :: reads ++ reads')

/-! ## Closures -/

variable {σ : Type} (f : ForeachObjptrClosure σ)

/-- What is left of a state when the closure has been applied to some slots, where they hold an object pointer. -/
def applyEach (slots : List ℕ) (st : σ) : σ :=
  slots.foldl (fun st opp => if isObjptr (L.word (f.memory st) opp) then f.apply opp st else st) st

/-- At the slots, the closure leaves the words alone. -/
def Leaves (slots reads : List ℕ) : Prop :=
  ∀ opp ∈ slots, ∀ st, ∀ a ∈ reads, L.word (f.memory (f.apply opp st)) a = L.word (f.memory st) a

/-- From `base` on, the words are those of the heap. -/
def Reads (m : Memory) (base : ℕ) (reads : List ℕ) (st : σ) : Prop :=
  ∀ a ∈ reads, L.word (f.memory st) (base + a) = L.word m a

variable {L f} {m : Memory} {w : Walk σ} {base : ℕ} {slots reads : List ℕ} {st : σ}

theorem state_callEach : ∀ (slots : List ℕ) (w : Walk σ),
    (L.callEach f slots w).state = L.applyEach f slots w.state
  | [], _ => rfl
  | opp :: slots, w => by
    have hcall : (L.callIfIsObjptr f w opp).state =
        if isObjptr (L.word (f.memory w.state) opp) then f.apply opp w.state else w.state := by
      rw [callIfIsObjptr]
      split <;> rfl
    refine (state_callEach slots (L.callIfIsObjptr f w opp)).trans ?_
    rw [hcall]
    rfl

theorem applyEach_append (slots slots' : List ℕ) (st : σ) :
    L.applyEach f (slots ++ slots') st = L.applyEach f slots' (L.applyEach f slots st) := List.foldl_append ..

theorem Leaves.mono {slots' reads' : List ℕ} (h : L.Leaves f slots reads) (hs : slots' ⊆ slots)
    (hr : reads' ⊆ reads) : L.Leaves f slots' reads' := fun opp ho st a ha => h opp (hs ho) st a (hr ha)

theorem Reads.mono {reads' : List ℕ} (h : L.Reads f m base reads st) (hr : reads' ⊆ reads) :
    L.Reads f m base reads' st := fun a ha => h a (hr ha)

/-- **The words stay as they are**, whatever slots are visited. -/
theorem Reads.applyEach : ∀ (slots : List ℕ) {st : σ}, L.Leaves f slots (reads.map (base + ·)) →
    L.Reads f m base reads st → L.Reads f m base reads (L.applyEach f slots st)
  | [], _, _, h => h
  | opp :: slots, st, hf, h => by
    refine Reads.applyEach slots (hf.mono (List.subset_cons_self ..) (List.Subset.refl _)) fun a ha => ?_
    beta_reduce
    split
    · rw [hf opp List.mem_cons_self st _ (List.mem_map_of_mem ha), h a ha]
    · exact h a ha

/-! ## The walk over an object -/

theorem objptrs_add (p n : ℕ) : L.objptrs (base + p) n = (L.objptrs p n).map (base + ·) := by
  simp [objptrs, Nat.add_assoc]

/-- **The frames of a stack are visited from the top**, by induction on them; there are at most as many as the
stack has bytes. -/
theorem foreachFrame_spec {bottom top : ℕ} (h : L.Frames m bottom top slots reads) : ∀ {n : ℕ} {w : Walk σ},
    top ≤ bottom + n → L.wordSize ≤ bottom → L.Leaves f (slots.map (base + ·)) (reads.map (base + ·)) →
    L.Reads f m base reads w.state →
    L.foreachFrame f (base + bottom) n (base + top) w = some (L.callEach f (slots.map (base + ·)) w) := by
  induction h with
  | bottom =>
    intro n w _ _ _ _
    cases n <;> rw [foreachFrame, if_neg (lt_irrefl _)] <;> rfl
  | @frame top frameInfo slots reads hlt hpos hle hinfo _ ih =>
    intro n w hn hw hf hreads
    cases n with
    | zero => omega
    | succ n =>
      have hword : L.word (f.memory w.state) (base + top - L.wordSize) = L.word m (top - L.wordSize) := by
        rw [Nat.add_sub_assoc (by omega)]
        exact hreads _ List.mem_cons_self
      have htop : base + top - frameInfo.size = base + (top - frameInfo.size) := Nat.add_sub_assoc (by omega) _
      have hmap : frameInfo.offsets.map (base + (top - frameInfo.size) + ·) =
          (frameInfo.offsets.map (top - frameInfo.size + ·)).map (base + ·) := by
        simp [Nat.add_assoc]
      rw [List.map_append] at hf ⊢
      have hrest : L.Reads f m base reads
          (L.callEach f ((frameInfo.offsets.map (top - frameInfo.size + ·)).map (base + ·)) w).state := by
        rw [state_callEach]
        exact Reads.applyEach _ (hf.mono (List.subset_append_left ..) (List.map_subset _ (List.subset_cons_self ..)))
          (hreads.mono (List.subset_cons_self ..))
      rw [foreachFrame, if_pos (by omega)]
      dsimp only
      rw [hword, hinfo]
      dsimp only [Option.bind_eq_bind, Option.bind_some]
      rw [htop, hmap, ih (by omega) hw
        (hf.mono (List.subset_append_right ..) (List.map_subset _ (List.subset_cons_self ..))) hrest]
      rw [callEach, callEach, callEach, List.foldl_append]

theorem sequenceSlots_add (ty : ObjectType) (p n : ℕ) :
    L.sequenceSlots ty (base + p) n = (L.sequenceSlots ty p n).map (base + ·) := by
  rw [sequenceSlots, sequenceSlots]
  split
  · rfl
  · split
    · exact objptrs_add p _
    · rw [List.map_flatMap]
      refine List.flatMap_congr fun i _ => ?_
      rw [← objptrs_add, Nat.add_assoc, Nat.add_assoc, Nat.add_assoc]

/-- **An object is visited**, and the walk goes on behind it. -/
theorem foreachObjptrInObject_spec {p e : ℕ} (h : L.ObjectAt m p slots reads e) (hp : L.wordSize ≤ p)
    (hf : L.Leaves f (slots.map (base + ·)) (reads.map (base + ·))) (hreads : L.Reads f m base reads w.state) :
    ∃ headers, L.foreachObjptrInObject f false (base + p) w =
      some (L.callEach f (slots.map (base + ·)) { w with headers := headers }, base + e) := by
  have hword : base + p - L.wordSize = base + (p - L.wordSize) := Nat.add_sub_assoc hp _
  have hheader : ∀ {ty : ObjectType}, L.splitHeader (L.getHeader m p) = some ty → p - L.wordSize ∈ reads →
      L.splitHeader (L.getHeader (f.memory w.state) (base + p)) = some ty := fun hty hmem => by
    rw [getHeader, hword, hreads _ hmem]
    exact hty
  refine ⟨w.headers ++ [base + p - L.wordSize], ?_⟩
  cases h with
  | normal hty htag =>
    rw [foreachObjptrInObject, hheader hty List.mem_cons_self]
    dsimp only [Option.bind_eq_bind, Option.bind_some]
    rw [htag]
    dsimp only
    rw [Nat.add_assoc base, objptrs_add, bytesOf, Nat.add_assoc, Nat.add_assoc]
  | weak hty htag hone =>
    rw [foreachObjptrInObject, hheader hty List.mem_cons_self]
    dsimp only [Option.bind_eq_bind, Option.bind_some]
    rw [htag]
    dsimp only
    rw [if_pos hone, if_neg Bool.false_ne_true, Nat.add_assoc base, Nat.add_assoc base]
    rfl
  | weakGone hty htag hone =>
    rw [foreachObjptrInObject, hheader hty List.mem_cons_self]
    dsimp only [Option.bind_eq_bind, Option.bind_some]
    rw [htag]
    dsimp only
    rw [if_neg hone, Nat.add_assoc base]
    rfl
  | @sequence ty hty htag hle =>
    have hlength : L.getSequenceLength (f.memory w.state) (base + p) = L.getSequenceLength m p := by
      rw [getSequenceLength, hword, Nat.add_sub_assoc (by omega)]
      exact hreads _ (by simp)
    rw [foreachObjptrInObject, hheader hty List.mem_cons_self]
    dsimp only [Option.bind_eq_bind, Option.bind_some]
    rw [htag]
    dsimp only
    rw [hlength, ← sequenceSlots_add, sequenceSlots, Nat.add_assoc base]
    split
    · rfl
    · split <;> rfl
  | @stack ty slots reads hty htag hframes =>
    have hused : L.getStackUsed (f.memory w.state) (base + p) = L.getStackUsed m p := by
      rw [getStackUsed, Nat.add_assoc]
      exact hreads _ (by simp)
    have hreserved : ∀ {st : σ}, L.Reads f m base ((p - L.wordSize) :: (p + 2 * L.wordSize) ::
        (p + 3 * L.wordSize) :: reads) st → L.getStackReserved (f.memory st) (base + p) = L.getStackReserved m p := by
      intro st hst
      rw [getStackReserved, Nat.add_assoc]
      exact hst _ (by simp)
    have hbottom : L.getStackBottom (base + p) = base + L.getStackBottom p := Nat.add_assoc ..
    have htop : L.getStackTop (f.memory w.state) (base + p) = base + L.getStackTop m p := by
      rw [getStackTop, hbottom, hused, getStackTop, Nat.add_assoc]
    have htail : reads ⊆ (p - L.wordSize) :: (p + 2 * L.wordSize) :: (p + 3 * L.wordSize) :: reads :=
      fun a ha => by simp [ha]
    rw [foreachObjptrInObject, hheader hty List.mem_cons_self]
    dsimp only [Option.bind_eq_bind, Option.bind_some]
    rw [htag]
    dsimp only
    rw [hused, hbottom, htop, foreachFrame_spec (w := { w with headers := w.headers ++ [base + p - L.wordSize] })
      hframes (by rw [getStackTop]) (by rw [getStackBottom]; omega)
      (hf.mono (List.Subset.refl _) (List.map_subset _ htail)) (hreads.mono htail), Option.bind_some]
    rw [hreserved (by rw [state_callEach]; exact hreads.applyEach _ hf), Nat.add_assoc base]

/-! ## The walk over a heap -/

theorem le_advanceToObjectData (m : Memory) (p : ℕ) : p + L.wordSize ≤ L.advanceToObjectData m p := by
  have := L.wordSize_pos
  rw [advanceToObjectData, sequenceMetaDataSize, normalMetaDataSize]
  split <;> omega

/-- **The heap is visited**, each slot once, by induction on its objects. -/
theorem foreachObjptrInRange_spec {front back : ℕ} (h : L.LaidOut m back front slots reads) : ∀ {w : Walk σ},
    L.Leaves f (slots.map (base + ·)) (reads.map (base + ·)) → L.Reads f m base reads w.state →
    ∃ n, ∀ k ≥ n, ∃ w', L.foreachObjptrInRange f (fun _ => base + back) false k (base + front) (base + back) w =
      some (w', base + back) ∧ w'.state = L.applyEach f (slots.map (base + ·)) w.state := by
  induction h with
  | nil =>
    intro w _ _
    refine ⟨1, fun k hk => ⟨w, ?_, rfl⟩⟩
    obtain ⟨k, rfl⟩ := Nat.exists_eq_add_of_le' hk
    rw [foreachObjptrInRange, if_neg (lt_irrefl _), if_neg (lt_irrefl _)]
  | @object front e slots reads slots' reads' hlt hobject _ ih =>
    intro w hf hreads
    rw [List.map_append] at hf ⊢
    have hadvance : L.advanceToObjectData (f.memory w.state) (base + front) =
        base + L.advanceToObjectData m front := by
      rw [advanceToObjectData, hreads front (by simp), advanceToObjectData]
      split <;> omega
    have hsub : reads ⊆ front :: reads ++ reads' := fun a ha => by simp [ha]
    have hsub' : reads' ⊆ front :: reads ++ reads' := fun a ha => by simp [ha]
    have hle := le_advanceToObjectData (L := L) m front
    obtain ⟨headers, hone⟩ := foreachObjptrInObject_spec (w := w) hobject (by omega)
      (hf.mono (List.subset_append_left ..) (List.map_subset _ hsub)) (hreads.mono hsub)
    have hrest : L.Reads f m base reads'
        (L.callEach f (slots.map (base + ·)) { w with headers := headers }).state := by
      rw [state_callEach]
      exact Reads.applyEach _ (hf.mono (List.subset_append_left ..) (List.map_subset _ hsub')) (hreads.mono hsub')
    obtain ⟨n, hn⟩ := ih (hf.mono (List.subset_append_right ..) (List.map_subset _ hsub')) hrest
    refine ⟨n + 1, fun k hk => ?_⟩
    obtain ⟨k, rfl⟩ := Nat.exists_eq_succ_of_ne_zero (by omega : k ≠ 0)
    obtain ⟨w', hw', hstate⟩ := hn k (by omega)
    refine ⟨w', ?_, ?_⟩
    · rw [foreachObjptrInRange, if_pos (by omega)]
      dsimp only [Option.bind_eq_bind]
      rw [hadvance, hone, Option.bind_some]
      exact hw'
    · rw [hstate, state_callEach, applyEach_append]

/-! ## Translating a heap -/

variable (L)

/-- The words do not overlap. -/
def Apart (a b : ℕ) : Prop := a + L.wordSize ≤ b ∨ b + L.wordSize ≤ a

/-- `translateFun`. -/
def translateFun (src dst size opp : ℕ) (m : Memory) : Memory :=
  let p := L.word m opp
  if src ≤ p ∧ p ≤ src + size then m.write L.wordSize opp (p - src + dst) else m

/-- `translateClosure`. -/
def translateClosure (src dst size : ℕ) : ForeachObjptrClosure Memory := ⟨L.translateFun src dst size, id⟩

/-- `translateHeap`.  The roots are the slots that `foreachGlobalObjptr` looks at. -/
def translateHeap (n : ℕ) (roots : List ℕ) (src dst size : ℕ) (m : Memory) : Option Memory :=
  if src = dst then some m
  else
    let f := L.translateClosure src dst size
    let limit := dst + size
    (L.foreachObjptrInRange f (fun _ => limit) false n (L.alignFrontier dst) limit
      (L.callEach f roots ⟨m, [], [], []⟩)).map fun r => r.1.state

/-- **What becomes of a word**: a pointer into the heap is moved by the difference of the starts. -/
def translated (src dst size v : ℕ) : ℕ :=
  if isObjptr v ∧ src ≤ v ∧ v ≤ src + size then v - src + dst else v

variable {L} {src dst size : ℕ}

/-- One step of `applyEach`. -/
def translateAt (L : Layout) (src dst size opp : ℕ) (m : Memory) : Memory :=
  if isObjptr (L.word m opp) then L.translateFun src dst size opp m else m

/-- A step only writes to the slot. -/
theorem agree_translateAt {lo hi : ℕ} (opp : ℕ) (m : Memory) (h : hi ≤ opp ∨ opp + L.wordSize ≤ lo) :
    m.Agree (L.translateAt src dst size opp m) lo hi := by
  rw [translateAt]
  split
  case isFalse => exact .refl
  case isTrue =>
    rw [translateFun]
    split
    case isFalse => exact .refl
    case isTrue => exact Memory.agree_write h

/-- **A word is translated.** -/
theorem word_translateAt (hlt : dst + size < 2 ^ (8 * L.wordSize)) (opp : ℕ) (m : Memory) :
    L.word (L.translateAt src dst size opp m) opp = translated src dst size (L.word m opp) := by
  rw [translateAt, translated]
  split
  case isFalse hno => rw [if_neg fun h => hno h.1]
  case isTrue hptr =>
    rw [translateFun]
    split
    case isFalse hno => rw [if_neg fun h => hno h.2]
    case isTrue hin =>
      rw [if_pos ⟨hptr, hin⟩, word, Memory.read_write_of_lt]
      have hpow : 2 ^ (8 * L.wordSize) = 256 ^ L.wordSize := by
        rw [pow_mul]
        norm_num
      omega

/-- **Each slot is translated once**, by induction on the slots, and nothing else changes. -/
theorem applyEach_translate (src : ℕ) (hlt : dst + size < 2 ^ (8 * L.wordSize)) : ∀ {slots : List ℕ} {m : Memory},
    slots.Pairwise L.Apart →
    (∀ a ∈ slots, L.word (L.applyEach (L.translateClosure src dst size) slots m) a =
      translated src dst size (L.word m a)) ∧
      (∀ b, (∀ a ∈ slots, L.Apart a b) →
        L.word (L.applyEach (L.translateClosure src dst size) slots m) b = L.word m b) ∧
        ∀ i, (∀ a ∈ slots, i < a ∨ a + L.wordSize ≤ i) →
          L.applyEach (L.translateClosure src dst size) slots m i = m i
  | [], _, _ => ⟨nofun, fun _ _ => rfl, fun _ _ => rfl⟩
  | opp :: slots, m, h => by
    obtain ⟨happ, htail⟩ := List.pairwise_cons.mp h
    obtain ⟨hin, hout, hbyte⟩ := applyEach_translate src hlt (m := L.translateAt src dst size opp m) htail
    have hword : ∀ {b : ℕ}, L.Apart opp b → L.word (L.translateAt src dst size opp m) b = L.word m b := fun hb =>
      (agree_translateAt opp m (by unfold Apart at hb; omega)).read_eq
    refine ⟨fun a ha => ?_, fun b hb => ?_, fun i hi => ?_⟩
    · obtain rfl | ha := List.mem_cons.mp ha
      · exact (hout a fun b hb => (happ b hb).symm).trans (word_translateAt hlt a m)
      · exact (hin a ha).trans (by rw [hword (happ a ha)])
    · exact (hout b fun a ha => hb a (List.mem_cons_of_mem _ ha)).trans (hword (hb opp List.mem_cons_self))
    · refine (hbyte i fun a ha => hi a (List.mem_cons_of_mem _ ha)).trans ?_
      have hi := hi opp List.mem_cons_self
      exact agree_translateAt opp m (by omega) i le_rfl (Nat.lt_succ_self i)

/-- **The objects of a heap**, in offsets: the slots do not overlap each other, nor the words that say where they
are. -/
structure Objects (L : Layout) (m : Memory) (size : ℕ) (slots reads : List ℕ) : Prop where
  laid : L.LaidOut m size (L.alignFrontier 0) slots reads
  slots_le : ∀ a ∈ slots, a + L.wordSize ≤ size
  reads_le : ∀ a ∈ reads, a + L.wordSize ≤ size
  apart : slots.Pairwise L.Apart
  separate : ∀ a ∈ slots, ∀ b ∈ reads, L.Apart a b

/-- The slots that are looked at: those of the roots, and those of a heap that starts at `base`. -/
def allSlots (roots slots : List ℕ) (base : ℕ) : List ℕ := roots ++ slots.map (base + ·)

theorem alignFrontier_add {base : ℕ} (h : L.alignment ∣ base) : L.alignFrontier base = base + L.alignFrontier 0 := by
  obtain ⟨k, rfl⟩ := h
  have hmod : (L.alignment * k + L.normalMetaDataSize + (L.alignment - 1)) % L.alignment =
      (L.normalMetaDataSize + (L.alignment - 1)) % L.alignment := by
    rw [Nat.add_assoc, Nat.mul_add_mod]
  have hle := le_align (a := L.normalMetaDataSize) L.alignment_pos
  have hmodle := Nat.mod_le (L.normalMetaDataSize + (L.alignment - 1)) L.alignment
  unfold align at hle
  rw [alignFrontier, alignFrontier, alignWithExtra, alignWithExtra, align, align, hmod, Nat.zero_add]
  omega

/-- **The slots of the roots and of a heap are apart**, wherever the heap is, if the roots are not in it. -/
theorem Objects.pairwise {roots slots reads : List ℕ} {base : ℕ} (h : L.Objects m size slots reads)
    (hroots : roots.Pairwise L.Apart) (hout : ∀ a ∈ roots, a + L.wordSize ≤ base ∨ base + size ≤ a) :
    (allSlots roots slots base).Pairwise L.Apart := by
  refine List.pairwise_append.mpr ⟨hroots, List.pairwise_map.mpr (h.apart.imp fun hab => ?_), fun a ha b hb => ?_⟩
  · unfold Apart at hab ⊢
    omega
  · obtain ⟨c, hc, rfl⟩ := List.mem_map.mp hb
    have := h.slots_le c hc
    have := hout a ha
    unfold Apart
    omega

/-- **Each pointer into a heap that has moved is translated**, in the roots and in the heap, and nothing else
changes. -/
theorem translateHeap_spec {m₀ : Memory} {roots slots reads : List ℕ} (h : L.Objects m₀ size slots reads)
    (hne : src ≠ dst) (hdst : L.alignment ∣ dst) (hlt : dst + size < 2 ^ (8 * L.wordSize))
    (hwords : ∀ a ∈ reads, L.word m (dst + a) = L.word m₀ a) (hroots : roots.Pairwise L.Apart)
    (hout : ∀ a ∈ roots, a + L.wordSize ≤ dst ∨ dst + size ≤ a) :
    ∃ m', (∃ n, ∀ k ≥ n, L.translateHeap k roots src dst size m = some m') ∧
      (∀ a ∈ allSlots roots slots dst, L.word m' a = translated src dst size (L.word m a)) ∧
        ∀ i, (∀ a ∈ allSlots roots slots dst, i < a ∨ a + L.wordSize ≤ i) → m' i = m i := by
  have hpair := h.pairwise hroots hout
  have hseparate : ∀ a ∈ allSlots roots slots dst, ∀ b ∈ reads, L.Apart a (dst + b) := fun a ha b hb => by
    have hb' := h.reads_le b hb
    obtain ha | ha := List.mem_append.mp ha
    · have := hout a ha
      unfold Apart
      omega
    · obtain ⟨c, hc, rfl⟩ := List.mem_map.mp ha
      have := h.separate c hc b hb
      unfold Apart at this ⊢
      omega
  have hleaves : L.Leaves (L.translateClosure src dst size) (allSlots roots slots dst) (reads.map (dst + ·)) := by
    intro a ha st b hb
    obtain ⟨c, hc, rfl⟩ := List.mem_map.mp hb
    have hapart := hseparate a ha c hc
    change L.word (L.translateFun src dst size a st) _ = L.word st _
    rw [translateFun]
    split
    · exact Memory.read_write_of_disjoint (by unfold Apart at hapart; omega)
    · rfl
  have hreads : L.Reads (L.translateClosure src dst size) m₀ dst reads
      (L.callEach (L.translateClosure src dst size) roots ⟨m, [], [], []⟩).state := by
    rw [state_callEach]
    exact Reads.applyEach _ (hleaves.mono (List.subset_append_left ..) (List.Subset.refl _)) hwords
  obtain ⟨n, hn⟩ := foreachObjptrInRange_spec h.laid
    (hleaves.mono (List.subset_append_right ..) (List.Subset.refl _)) hreads
  obtain ⟨hin, -, hbyte⟩ := applyEach_translate src hlt (m := m) hpair
  refine ⟨_, ⟨n, fun k hk => ?_⟩, hin, hbyte⟩
  obtain ⟨w', hw', hstate⟩ := hn k hk
  rw [translateHeap, if_neg hne]
  dsimp only
  rw [alignFrontier_add hdst, hw', Option.map_some, hstate, state_callEach, allSlots, applyEach_append]

end MLton.Runtime.Layout
