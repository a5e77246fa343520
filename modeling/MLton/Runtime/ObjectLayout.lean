import MLton.Machinery.Memory
import MLton.Runtime.GCState

/-!
# Runtime/ObjectLayout — objects as bytes

A pointer to an object points behind its metadata.  The word in front of it is the header, an index into
the table of object types, and a sequence has its length and a counter in front of the header.  The data
of a normal object, and of each element of a sequence, are bytes without pointers and then the pointers.
-/

namespace MLton.Runtime

theorem align_align {a b : ℕ} (hb : 0 < b) : align (align a b) b = align a b := by
  have hdvd : b ∣ align a b := Nat.dvd_sub_mod (a + (b - 1))
  obtain ⟨k, hk⟩ := hdvd
  rw [hk, align, Nat.mul_add_mod, Nat.mod_eq_of_lt (by omega), Nat.add_sub_cancel]

/-- `GC_objectTypeTag`. -/
inductive ObjectTypeTag where
  | normal
  | sequence
  | stack
  | weak
deriving DecidableEq

/-- `GC_objectType`. -/
structure ObjectType where
  tag : ObjectTypeTag
  hasIdentity : Bool
  bytesNonObjptrs : ℕ
  numObjptrs : ℕ

/-- `GC_frameInfo`: where the pointers of a frame are, and its size. -/
structure FrameInfo where
  offsets : List ℕ
  size : ℕ

/-- The two sizes that the runtime is compiled for. -/
theorem four_allowed : (4 : ℕ) = 4 ∨ (4 : ℕ) = 8 := .inl rfl

theorem eight_allowed : (8 : ℕ) = 4 ∨ (8 : ℕ) = 8 := .inr rfl

/-- What the machine and the program fix in `struct GC_state`.  An object pointer, a header, the length of
a sequence, a pointer, a `size_t` and a return address have the same size, `wordSize`, in both models. -/
structure Layout where
  alignment : ℕ
  frameInfos : List FrameInfo
  maxFrameSize : ℕ
  objectTypes : List ObjectType
  returnAddressToFrameIndex : ℕ → ℕ
  wordSize : ℕ
  align48 : alignment = 4 ∨ alignment = 8
  native : wordSize = 4 ∨ wordSize = 8

/-- `buildHeaderFromTypeIndex`. -/
def buildHeaderFromTypeIndex (t : ℕ) : ℕ := 1 ||| t <<< 1

/-- The type index bits of a header. -/
def typeIndex (header : ℕ) : ℕ := (header &&& 0x000FFFFE) >>> 1

theorem typeIndex_buildHeaderFromTypeIndex {t : ℕ} (h : t < 2 ^ 19) :
    typeIndex (buildHeaderFromTypeIndex t) = t := by
  refine Nat.eq_of_testBit_eq fun i => ?_
  have hmask : (0x000FFFFE : ℕ) = (2 ^ 19 - 1) <<< 1 := by decide
  rw [typeIndex, buildHeaderFromTypeIndex, hmask, Nat.testBit_shiftRight, Nat.testBit_and,
    Nat.testBit_or, Nat.testBit_shiftLeft, Nat.testBit_shiftLeft, Nat.testBit_two_pow_sub_one]
  have hone : Nat.testBit 1 (1 + i) = false := Nat.testBit_lt_two_pow (Nat.one_lt_two_pow (by omega))
  rcases Nat.lt_or_ge i 19 with hi | hi
  · simp [hi, hone]
  · rw [Nat.testBit_lt_two_pow (h.trans_le (Nat.pow_le_pow_right (by decide) hi))]
    simp [Nat.add_comm 1 i, hi]

namespace Layout

variable (L : Layout)

theorem wordSize_pos : 0 < L.wordSize := by
  have := L.native
  omega

theorem alignment_pos : 0 < L.alignment := by
  have := L.align48
  omega

/-- A header fits into a word. -/
theorem buildHeaderFromTypeIndex_lt {t : ℕ} (h : t < 2 ^ 19) :
    buildHeaderFromTypeIndex t < 256 ^ L.wordSize := by
  have hheader : buildHeaderFromTypeIndex t < 2 ^ 20 := by
    refine Nat.or_lt_two_pow (by decide) ?_
    rw [Nat.shiftLeft_eq]
    omega
  refine hheader.trans_le ?_
  rcases L.native with hw | hw <;> rw [hw] <;> decide

/-- `GC_NORMAL_METADATA_SIZE`: the header. -/
def normalMetaDataSize : ℕ := L.wordSize

/-- `GC_SEQUENCE_METADATA_SIZE`: the counter, the length and the header. -/
def sequenceMetaDataSize : ℕ := 3 * L.wordSize

/-- The size of `struct GC_stack`: `markTop`, `markIndex`, `reserved` and `used`. -/
def sizeofStack : ℕ := 4 * L.wordSize

/-- The word at an address. -/
def word (m : Memory) (a : ℕ) : ℕ := m.read L.wordSize a

/-- `getHeader`. -/
def getHeader (m : Memory) (p : ℕ) : ℕ := L.word m (p - L.wordSize)

/-- `getSequenceLength`. -/
def getSequenceLength (m : Memory) (p : ℕ) : ℕ := L.word m (p - L.wordSize - L.wordSize)

/-- `stack->reserved`. -/
def getStackReserved (m : Memory) (stack : ℕ) : ℕ := L.word m (stack + 2 * L.wordSize)

/-- `stack->used`. -/
def getStackUsed (m : Memory) (stack : ℕ) : ℕ := L.word m (stack + 3 * L.wordSize)

/-- `getStackBottom`. -/
def getStackBottom (stack : ℕ) : ℕ := stack + L.sizeofStack

/-- `getStackTop`. -/
def getStackTop (m : Memory) (stack : ℕ) : ℕ := L.getStackBottom stack + L.getStackUsed m stack

/-- `splitHeader`, without the assertions; there may be no such type. -/
def splitHeader (header : ℕ) : Option ObjectType := L.objectTypes[typeIndex header]?

/-- `advanceToObjectData`. -/
def advanceToObjectData (m : Memory) (p : ℕ) : ℕ :=
  if L.word m p = 0 then p + L.sequenceMetaDataSize else p + L.normalMetaDataSize

/-- `alignWithExtra`. -/
def alignWithExtra (bytes extra : ℕ) : ℕ := align (bytes + extra) L.alignment - extra

/-- `alignFrontier`. -/
def alignFrontier (p : ℕ) : ℕ := L.alignWithExtra p L.normalMetaDataSize

/-- The bytes of a normal object, or of an element of a sequence. -/
def bytesOf (ty : ObjectType) : ℕ := ty.bytesNonObjptrs + ty.numObjptrs * L.wordSize

/-- The addresses of `n` object pointers in a row. -/
def objptrs (p n : ℕ) : List ℕ := (List.range n).map fun i => p + i * L.wordSize

/-- **An aligned address stays where it is.** -/
@[simp] theorem alignFrontier_alignFrontier (p : ℕ) :
    L.alignFrontier (L.alignFrontier p) = L.alignFrontier p := by
  have hle := le_align (a := p + L.normalMetaDataSize) L.alignment_pos
  simp only [alignFrontier, alignWithExtra]
  rw [Nat.sub_add_cancel (by omega), align_align L.alignment_pos]

theorem mem_objptrs {p n a : ℕ} :
    a ∈ L.objptrs p n ↔ ∃ i < n, a = p + i * L.wordSize := by
  simp [objptrs, eq_comm]

end Layout

end MLton.Runtime

/-!
## The collector's walks over object pointers

`foreachObjptrInObject` applies a closure to the pointers of one object and returns the end of the object,
and `foreachObjptrInRange` goes on from there while it is in front of `back`, which the closure may move.
A walk records the addresses it reads headers at, the addresses it takes for slots, and those of them that
hold a pointer, where it applies the closure.

There is no result if a header has no type, or a frame no description, or if the steps run out.
-/

namespace MLton.Runtime

/-- `GC_foreachObjptrClosure`.  It is applied to the address of an object pointer. -/
structure ForeachObjptrClosure (σ : Type) where
  apply : ℕ → σ → σ
  memory : σ → Memory

/-- How far a walk has come. -/
structure Walk (σ : Type) where
  state : σ
  headers : List ℕ
  slots : List ℕ
  applied : List ℕ

namespace Layout

variable {σ : Type} (L : Layout) (f : ForeachObjptrClosure σ)

/-- `callIfIsObjptr`. -/
def callIfIsObjptr (w : Walk σ) (opp : ℕ) : Walk σ :=
  if isObjptr (L.word (f.memory w.state) opp) then
    { w with state := f.apply opp w.state, slots := w.slots ++ [opp], applied := w.applied ++ [opp] }
  else { w with slots := w.slots ++ [opp] }

/-- `callIfIsObjptr` at one address after the other. -/
def callEach (opps : List ℕ) (w : Walk σ) : Walk σ := opps.foldl (L.callIfIsObjptr f) w

/-- The loop over the frames of a stack, from its top.  A frame has at least one byte, so there are at
most as many as the stack has bytes. -/
def foreachFrame (bottom : ℕ) : ℕ → ℕ → Walk σ → Option (Walk σ)
  | 0, top, w => if bottom < top then none else some w
  | n + 1, top, w =>
    if bottom < top then do
      let returnAddress := L.word (f.memory w.state) (top - L.wordSize)
      let frameInfo ← L.frameInfos[L.returnAddressToFrameIndex returnAddress]?
      let top := top - frameInfo.size
      foreachFrame bottom n top (L.callEach f (frameInfo.offsets.map (top + ·)) w)
    else some w

/-- `foreachObjptrInObject`. -/
def foreachObjptrInObject (skipWeaks : Bool) (p : ℕ) (w : Walk σ) : Option (Walk σ × ℕ) := do
  let header := L.getHeader (f.memory w.state) p
  let w := { w with headers := w.headers ++ [p - L.wordSize] }
  let ty ← L.splitHeader header
  match ty.tag with
  | .normal =>
    let p := p + ty.bytesNonObjptrs
    some (L.callEach f (L.objptrs p ty.numObjptrs) w, p + ty.numObjptrs * L.wordSize)
  | .weak =>
    let p := p + ty.bytesNonObjptrs
    if 1 = ty.numObjptrs then
      some (if skipWeaks then w else L.callIfIsObjptr f w p, p + L.wordSize)
    else some (w, p)
  | .sequence =>
    let numElements := L.getSequenceLength (f.memory w.state) p
    let bytesPerElement := ty.bytesNonObjptrs + ty.numObjptrs * L.wordSize
    let dataBytes := numElements * bytesPerElement
    let w :=
      if 0 = ty.numObjptrs then w
      else if 0 = ty.bytesNonObjptrs then
        L.callEach f (L.objptrs p (numElements * ty.numObjptrs)) w
      else
        L.callEach f ((List.range numElements).flatMap fun i =>
          L.objptrs (p + i * bytesPerElement + ty.bytesNonObjptrs) ty.numObjptrs) w
    some (w, p + L.alignWithExtra dataBytes L.sequenceMetaDataSize)
  | .stack =>
    let used := L.getStackUsed (f.memory w.state) p
    let w ← L.foreachFrame f (L.getStackBottom p) used (L.getStackTop (f.memory w.state) p) w
    some (w, p + (L.sizeofStack + L.getStackReserved (f.memory w.state) p))

/-- `foreachObjptrInRange`.  The inner loop goes up to `b`, and the outer one reads `back` again. -/
def foreachObjptrInRange (back : σ → ℕ) (skipWeaks : Bool) : ℕ → ℕ → ℕ → Walk σ → Option (Walk σ × ℕ)
  | 0, _, _, _ => none
  | n + 1, front, b, w =>
    if front < b then do
      let p := L.advanceToObjectData (f.memory w.state) front
      let (w, front) ← L.foreachObjptrInObject f skipWeaks p w
      foreachObjptrInRange back skipWeaks n front b w
    else if front < back w.state then foreachObjptrInRange back skipWeaks n front (back w.state) w
    else some (w, front)

end Layout

end MLton.Runtime
