import MLton.Runtime.ObjectLayout

/-!
# Runtime/RegionBuffer — regions nested in one buffer

A push stores the base of the region at the top of the buffer and starts a region behind it; a pop goes
back to where the base is stored.  Objects are allocated at the top.  `Run` are the sequences of pushes,
allocations and pops in which a pop closes a region that a push has opened, together with the objects that
were allocated in each open region.

`Laid` says what the buffer looks like after a run, and `Run.laid` that it does.  Behind each object there
is a gap: `stackObject` adds the size of the metadata to the top twice.
-/

namespace MLton.Runtime

/-- The fields of `struct GC_state` that regions use. -/
structure RegionState where
  memory : Memory
  regionBuffer : ℕ
  regionBase : ℕ
  regionTop : ℕ
  bytesStackAllocated : ℕ
  maxRegionBytesLive : ℕ

/-- An object in the region buffer. -/
structure Placed where
  objptr : ℕ
  type : ObjectType

/-- A component of a new object: its offset, its bytes, and what it starts as. -/
structure Init where
  offset : ℕ
  bytes : ℕ
  src : ℕ

/-- `mkInit`: store the components of an object. -/
def mkInit (dst : ℕ) (init : List Init) (s : RegionState) : RegionState :=
  { s with memory := init.foldl (fun m i => m.write i.bytes (dst + i.offset) i.src) s.memory }

namespace Layout

variable (L : Layout)

/-- The size of the mapping that holds the region buffer. -/
def regionBufferSize : ℕ := 8 * 1024 * 1024

/-- What `GC_init` does to the region buffer, in the pages mapped at an address. -/
def initRegions (m : Memory) (mapped : ℕ) : RegionState where
  memory := m
  regionBuffer := L.alignFrontier mapped
  regionBase := L.alignFrontier mapped
  regionTop := L.alignFrontier mapped
  bytesStackAllocated := 0
  maxRegionBytesLive := 0

/-- `GC_regionPush`, and what the compiler emits for `Region_push`. -/
def regionPush (s : RegionState) : RegionState :=
  let newBase := s.regionTop + L.wordSize
  { s with
    memory := s.memory.write L.wordSize s.regionTop s.regionBase
    regionBase := newBase
    regionTop := newBase }

/-- `GC_regionPop`. -/
def regionPop (s : RegionState) : RegionState :=
  if s.regionTop = s.regionBuffer then s
  else if s.regionBase = s.regionBuffer then { s with regionTop := s.regionBuffer }
  else
    let newTop := s.regionBase - L.wordSize
    { s with
      regionTop := newTop
      regionBase := L.word s.memory newTop
      bytesStackAllocated := s.bytesStackAllocated + (s.regionTop - newTop)
      maxRegionBytesLive := max s.maxRegionBytesLive (s.regionTop - s.regionBuffer) }

/-- What the compiler emits for `Region_pop`. -/
def regionPopInline (s : RegionState) : RegionState :=
  let newTop := s.regionBase - L.wordSize
  { s with regionTop := newTop, regionBase := L.word s.memory newTop }

/-- `Object.size` of a normal object. -/
def objectSize (ty : ObjectType) : ℕ := L.normalMetaDataSize + L.bytesOf ty

/-- `Machine.Statement.stackObject`: store the header of an object at the top. -/
def stackObject (header size : ℕ) (s : RegionState) : RegionState :=
  let dst := s.regionTop + L.normalMetaDataSize
  { s with
    memory := s.memory.write L.wordSize (dst - L.wordSize) header
    regionTop := dst + size }

/-- A statement `Object` of mode `Stack`. -/
def allocate (t : ℕ) (ty : ObjectType) (init : List Init) (s : RegionState) : RegionState :=
  mkInit (s.regionTop + L.normalMetaDataSize) init
    (L.stackObject (buildHeaderFromTypeIndex t) (L.objectSize ty) s)

/-- The runs of the region buffer, with the objects in the open regions, the innermost region first and
in a region the newest object first.  To store behind the pages that are mapped is no step. -/
inductive Run (mapped : ℕ) : RegionState → List (List Placed) → Prop
  | init {m : Memory} : mapped + regionBufferSize ≤ 256 ^ L.wordSize →
      Run mapped (L.initRegions m mapped) [[]]
  | push {s : RegionState} {regions : List (List Placed)} : Run mapped s regions →
      s.regionTop + L.wordSize ≤ mapped + regionBufferSize → Run mapped (L.regionPush s) ([] :: regions)
  | object {s : RegionState} {region : List Placed} {regions : List (List Placed)} {t : ℕ}
      {ty : ObjectType} {init : List Init} : Run mapped s (region :: regions) → t < 2 ^ 19 →
      L.objectTypes[t]? = some ty → ty.tag = .normal → (∀ i ∈ init, i.offset + i.bytes ≤ L.bytesOf ty) →
      s.regionTop + L.objectSize ty ≤ mapped + regionBufferSize →
      Run mapped (L.allocate t ty init s)
        ((⟨s.regionTop + L.normalMetaDataSize, ty⟩ :: region) :: regions)
  | pop {s : RegionState} {region region' : List Placed} {regions : List (List Placed)} :
      Run mapped s (region :: region' :: regions) → Run mapped (L.regionPop s) (region' :: regions)
  | popInline {s : RegionState} {region region' : List Placed} {regions : List (List Placed)} :
      Run mapped s (region :: region' :: regions) → Run mapped (L.regionPopInline s) (region' :: regions)

/-! ## What the buffer looks like -/

/-- **The bytes of the buffer**, from its start up to the top: the bases that pushes have stored, and the
objects, each with its header and with a gap behind it. -/
inductive Laid (buffer : ℕ) (m : Memory) : List (List Placed) → ℕ → ℕ → Prop
  | buffer : Laid buffer m [[]] buffer buffer
  | base {regions : List (List Placed)} {base top : ℕ} : Laid buffer m regions base top →
      L.word m top = base → Laid buffer m ([] :: regions) (top + L.wordSize) (top + L.wordSize)
  | object {region : List Placed} {regions : List (List Placed)} {base top : ℕ} {ty : ObjectType} :
      Laid buffer m (region :: regions) base top → L.splitHeader (L.word m top) = some ty →
      ty.tag = .normal → Laid buffer m
        ((⟨top + L.normalMetaDataSize, ty⟩ :: region) :: regions) base
        (top + L.normalMetaDataSize + L.objectSize ty)

namespace Laid

variable {L} {buffer base top : ℕ} {m m' : Memory} {regions : List (List Placed)}

theorem bounds (h : L.Laid buffer m regions base top) : buffer ≤ base ∧ base ≤ top := by
  induction h with
  | buffer => exact ⟨le_rfl, le_rfl⟩
  | base _ _ ih => exact ⟨by omega, le_rfl⟩
  | object _ _ _ ih => exact ⟨ih.1, by omega⟩

theorem ne_nil (h : L.Laid buffer m regions base top) : regions ≠ [] := by
  cases h <;> exact List.cons_ne_nil _ _

/-- **The bytes above the top do not matter.** -/
theorem agree (h : L.Laid buffer m regions base top) (hm : m.Agree m' buffer top) :
    L.Laid buffer m' regions base top := by
  induction h with
  | buffer => exact .buffer
  | base h hbase ih =>
    have hbounds := h.bounds
    refine .base (ih (hm.mono le_rfl (by omega))) ?_
    exact (Memory.Agree.read_eq (hm.mono (by omega) le_rfl)).trans hbase
  | @object region regions base top ty h hheader htag ih =>
    have hbounds := h.bounds
    refine .object (ih (hm.mono le_rfl (by omega))) ?_ htag
    have hword : L.word m' top = L.word m top := by
      refine Memory.Agree.read_eq (hm.mono (by omega) ?_)
      simp only [normalMetaDataSize]
      omega
    rwa [hword]

/-- **Where a region starts, the base of the region around it is stored.** -/
theorem pop {region region' : List Placed} (h : L.Laid buffer m (region :: region' :: regions) base top) :
    ∃ top', base = top' + L.wordSize ∧ L.Laid buffer m (region' :: regions) (L.word m top') top' := by
  generalize hrs : region :: region' :: regions = rs at h
  induction h generalizing region with
  | buffer => simp at hrs
  | @base _ base top h hbase _ =>
    obtain ⟨rfl, rfl⟩ := List.cons.inj hrs
    exact ⟨top, rfl, hbase ▸ h⟩
  | object h _ _ ih =>
    obtain ⟨_, rfl⟩ := List.cons.inj hrs
    exact ih rfl

/-- The objects are below the top, and there is a word behind each. -/
theorem object_lt (h : L.Laid buffer m regions base top) {o : Placed} (ho : o ∈ regions.flatten) :
    buffer + L.wordSize ≤ o.objptr ∧ o.objptr + L.bytesOf o.type + L.wordSize ≤ top ∧
      o.type.tag = .normal ∧ L.splitHeader (L.getHeader m o.objptr) = some o.type := by
  induction h with
  | buffer => simp at ho
  | base h _ ih =>
    obtain ⟨hlo, hhi, hrest⟩ := ih (by simpa using ho)
    exact ⟨hlo, by omega, hrest⟩
  | @object region regions base top ty h hheader htag ih =>
    have hbounds := h.bounds
    rcases List.mem_cons.mp ho with rfl | ho
    · refine ⟨?_, ?_, htag, ?_⟩
      · simp only [normalMetaDataSize]
        omega
      · simp only [normalMetaDataSize, objectSize]
        omega
      · simpa only [getHeader, normalMetaDataSize, Nat.add_sub_cancel] using hheader
    · obtain ⟨hlo, hhi, hrest⟩ := ih ho
      exact ⟨hlo, by omega, hrest⟩

/-- **No header is in the data of an object.** -/
theorem disjoint (h : L.Laid buffer m regions base top) {o o' : Placed} (ho : o ∈ regions.flatten)
    (ho' : o' ∈ regions.flatten) :
    o'.objptr ≤ o.objptr ∨ o.objptr + L.bytesOf o.type + L.wordSize ≤ o'.objptr := by
  induction h with
  | buffer => simp at ho
  | base h _ ih => exact ih (by simpa using ho) (by simpa using ho')
  | @object region regions base top ty h hheader htag ih =>
    rcases List.mem_cons.mp ho with rfl | ho
    · rcases List.mem_cons.mp ho' with rfl | ho'
      · exact .inl le_rfl
      · have := (h.object_lt ho').2.1
        exact .inl (by simp only; omega)
    · rcases List.mem_cons.mp ho' with rfl | ho'
      · have := (h.object_lt ho).2.1
        exact .inr (by simp only [normalMetaDataSize]; omega)
      · exact ih ho ho'

/-- **An empty buffer** ends where it starts. -/
theorem top_eq (h : L.Laid buffer m [[]] base top) : top = buffer := by
  cases h with
  | buffer => rfl
  | base h _ => exact absurd rfl h.ne_nil

/-- **A buffer with something in it is not empty.** -/
theorem lt_top (h : L.Laid buffer m regions base top) (hne : regions ≠ [[]]) : buffer < top := by
  have hpos := L.wordSize_pos
  cases h with
  | buffer => exact absurd rfl hne
  | base h _ =>
    have := h.bounds
    omega
  | object h _ _ =>
    have := h.bounds
    simp only [normalMetaDataSize]
    omega

end Laid

/-! ## Runs -/

namespace Run

variable {L} {mapped : ℕ} {s : RegionState} {regions : List (List Placed)}

theorem agree_mkInit {m : Memory} {dst lo hi n : ℕ} : ∀ {init : List Init},
    (∀ i ∈ init, i.offset + i.bytes ≤ n) → hi ≤ dst ∨ dst + n ≤ lo →
    m.Agree (init.foldl (fun m i => m.write i.bytes (dst + i.offset) i.src) m) lo hi
  | [], _, _ => Memory.Agree.refl
  | i :: rest, hinit, hout => by
      have hi := hinit i List.mem_cons_self
      refine Memory.Agree.trans (Memory.agree_write (by omega))
        (agree_mkInit (fun i hi => hinit i (List.mem_cons_of_mem _ hi)) hout)

/-- **What a run keeps.** -/
theorem laid (h : L.Run mapped s regions) : mapped + regionBufferSize ≤ 256 ^ L.wordSize ∧
    s.regionBuffer = L.alignFrontier mapped ∧
    L.Laid s.regionBuffer s.memory regions s.regionBase s.regionTop := by
  have hpos := L.wordSize_pos
  induction h with
  | @init m hsize => exact ⟨hsize, rfl, .buffer⟩
  | @push s regions _ hfits ih =>
    obtain ⟨hsize, hbuffer, hlaid⟩ := ih
    have hbounds := hlaid.bounds
    refine ⟨hsize, hbuffer, .base (hlaid.agree (Memory.agree_write (.inl le_rfl))) ?_⟩
    exact Memory.read_write_of_lt (by omega)
  | @object s region regions t ty init _ ht htype htag hinit hfits ih =>
    obtain ⟨hsize, hbuffer, hlaid⟩ := ih
    have hheader := L.buildHeaderFromTypeIndex_lt ht
    have hdst : s.regionTop + L.normalMetaDataSize - L.wordSize = s.regionTop := Nat.add_sub_cancel _ _
    refine ⟨hsize, hbuffer, .object (hlaid.agree ?_) ?_ htag⟩
    · refine Memory.Agree.trans (Memory.agree_write (.inl hdst.ge)) (agree_mkInit hinit (.inl ?_))
      exact Nat.le_add_right _ _
    · have hword : L.word (L.allocate t ty init s).memory s.regionTop = buildHeaderFromTypeIndex t := by
        refine (Memory.Agree.read_eq (agree_mkInit hinit (.inl le_rfl))).trans ?_
        simp only [stackObject, hdst]
        exact Memory.read_write_of_lt hheader
      rw [hword, splitHeader, typeIndex_buildHeaderFromTypeIndex ht, htype]
  | @pop s region region' regions _ ih =>
    obtain ⟨hsize, hbuffer, hlaid⟩ := ih
    have hbounds := hlaid.bounds
    obtain ⟨top', hbase, hlaid'⟩ := hlaid.pop
    have hbounds' := hlaid'.bounds
    have htop : s.regionTop ≠ s.regionBuffer := by omega
    have hne : s.regionBase ≠ s.regionBuffer := by omega
    have hnew : s.regionBase - L.wordSize = top' := by omega
    rw [regionPop, if_neg htop, if_neg hne]
    simp only [hnew]
    exact ⟨hsize, hbuffer, hlaid'⟩
  | @popInline s region region' regions _ ih =>
    obtain ⟨hsize, hbuffer, hlaid⟩ := ih
    obtain ⟨top', hbase, hlaid'⟩ := hlaid.pop
    have hnew : s.regionBase - L.wordSize = top' := by omega
    simp only [regionPopInline, hnew]
    exact ⟨hsize, hbuffer, hlaid'⟩

end Run

end Layout

end MLton.Runtime
