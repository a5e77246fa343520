import MLton.Atoms
import MLton.Runtime.CardMap

/-!
# Runtime/GCState — the mutator, the allocators and the collector

Objects live in the old generation, in the nursery or, when their mode is `stack`, in the region buffer.
A step of the mutator marks the cards that the compiler's updates and the runtime's block copy mark; a
collection moves the objects of the nursery, or of the whole heap, and lays the nursery out anew.

Metadata stands in front of an object, so a pointer lies behind the start of the area its object is in,
and a pointer to an object without bytes may lie at the end.
-/

namespace MLton.Runtime

/-- A stretch of memory that objects are in. -/
structure Area where
  lo : ℕ
  hi : ℕ

namespace Area

/-- The pointer is to an object of the area. -/
def Has (a : Area) (p : ℕ) : Prop := a.lo < p ∧ p ≤ a.hi

/-- All the bytes of an object are in the area. -/
def Holds (a : Area) (p size : ℕ) : Prop := a.Has p ∧ p + size ≤ a.hi

/-- The areas do not overlap. -/
def Disjoint (a b : Area) : Prop := a.hi ≤ b.lo ∨ b.hi ≤ a.lo

instance (a : Area) (p : ℕ) : Decidable (a.Has p) := inferInstanceAs (Decidable (_ ∧ _))

theorem Disjoint.not_has {a b : Area} {p : ℕ} (h : a.Disjoint b) (ha : a.Has p) : ¬ b.Has p := by
  rintro ⟨hlo, hhi⟩
  obtain ⟨halo, hahi⟩ := ha
  unfold Disjoint at h
  omega

end Area

/-- What the header of an object says. -/
inductive Tag where
  | normal
  | sequence (bytesNonObjptrs numObjptrs : ℕ)
  | stack
deriving DecidableEq

/-- `BOGUS_OBJPTR`. -/
def bogusObjptr : ℕ := 1

/-- `isObjptr`: the word looks like a pointer. -/
def isObjptr (v : ℕ) : Bool := v % 4 = 0

/-- An object: its pointer slots, each with its offset and what it holds. -/
structure Object where
  mode : Mode
  tag : Tag
  size : ℕ
  slots : List (ℕ × ℕ)
  inside : ∀ sl ∈ slots, sl.1 < size
  noObjptrs : ∀ b, tag = .sequence b 0 → slots = []
  stack_size : tag = .stack → 0 < size

namespace Object

/-- Put other values into the slots. -/
def mapSlots (o : Object) (g : ℕ × ℕ → ℕ) : Object :=
  { o with
    slots := o.slots.map fun sl => (sl.1, g sl)
    inside := fun sl hsl => by
      obtain ⟨sl', hsl', rfl⟩ := List.mem_map.mp hsl
      exact o.inside sl' hsl'
    noObjptrs := fun b hb => by rw [o.noObjptrs b hb]; rfl }

/-- The word in the slot at an offset. -/
def load (o : Object) (offset : ℕ) : ℕ := ((o.slots.find? (·.1 = offset)).map Prod.snd).getD bogusObjptr

/-- Store a word in the slot at an offset. -/
def store (o : Object) (offset v : ℕ) : Object :=
  o.mapSlots fun sl => if sl.1 = offset then v else sl.2

/-- `GC_memmove` of `l` elements of `eltSize` bytes, from the element `ss` of `src` to the element `ds`. -/
def copy (o src : Object) (eltSize ds ss l : ℕ) : Object :=
  o.mapSlots fun sl =>
    if eltSize * ds ≤ sl.1 ∧ sl.1 < eltSize * (ds + l) then
      src.load (sl.1 - eltSize * ds + eltSize * ss)
    else sl.2

variable {o src : Object} {sl : ℕ × ℕ}

theorem mem_mapSlots {g : ℕ × ℕ → ℕ} :
    sl ∈ (o.mapSlots g).slots ↔ ∃ sl' ∈ o.slots, sl = (sl'.1, g sl') := by
  simp [mapSlots, eq_comm]

theorem load_mem (o : Object) (offset : ℕ) :
    o.load offset = bogusObjptr ∨ ∃ sl ∈ o.slots, sl.2 = o.load offset := by
  unfold load
  cases hfind : o.slots.find? (·.1 = offset) with
  | none => exact .inl rfl
  | some sl => exact .inr ⟨sl, List.mem_of_find?_eq_some hfind, rfl⟩

end Object

/-- `struct GC_state`, as far as marking cards is concerned.  `cards` are the bytes that marks store to,
`tops` the region tops that are saved in the region buffer, and `current` is the current stack. -/
structure GCState where
  heap : Heap
  canMinor : Bool
  cards : ℕ → Bool
  current : ℕ
  frontier : ℕ
  objects : ℕ → Option Object
  regionBuffer : Area
  regionTop : ℕ
  statics : Area
  tops : List ℕ

namespace GCState

variable (T : Target) (s : GCState)

/-- The whole heap. -/
def heapArea : Area := ⟨s.heap.start, s.heap.limit⟩

/-- The old generation. -/
def oldGen : Area := ⟨s.heap.start, s.heap.oldGenEnd⟩

/-- The part of the nursery that is allocated. -/
def nursery : Area := ⟨s.heap.nursery, s.frontier⟩

/-- The word is no pointer, or one to where objects are. -/
def Points (v : ℕ) : Prop :=
  isObjptr v = true → s.oldGen.Has v ∨ s.nursery.Has v ∨ s.regionBuffer.Has v ∨ s.statics.Has v

/-- What the mutator can store: no pointer, a pointer to an object, or one out of the heap. -/
def Held (v : ℕ) : Prop :=
  isObjptr v = true → (∃ o, s.objects v = some o) ∨ s.regionBuffer.Has v ∨ s.statics.Has v

/-- `markCard`. -/
def markCard (p : ℕ) : GCState :=
  { s with cards := Function.update s.cards (s.heap.pointerToCardMapAddr T p) true }

/-- What the statements of `updateCard` do. -/
def updateCard (p : ℕ) : GCState :=
  { s with cards := Function.update s.cards (s.heap.updateCard T p) true }

/-- `isCardMarked`. -/
def isCardMarked (p : ℕ) : Prop := s.cards (s.heap.pointerToCardMapAddr T p) = true

instance (p : ℕ) : Decidable (s.isCardMarked T p) := inferInstanceAs (Decidable (_ = true))

/-- Put an object at a pointer. -/
def write (p : ℕ) (o : Object) : GCState := { s with objects := Function.update s.objects p (some o) }

/-- `hasHeapBytesFree`. -/
def hasHeapBytesFree (oldGen nursery : ℕ) : Prop :=
  s.heap.oldGenSize + oldGen + (if s.canMinor then 2 else 1) * (s.heap.limit - s.heap.nursery)
      ≤ s.heap.size ∧
    nursery ≤ s.heap.limit - s.frontier

/-- Mark some cards. -/
def markCards (ps : List ℕ) : GCState := ps.foldl (markCard T) s

/-- Mark some cards, as compiled code does. -/
def updateCards (ps : List ℕ) : GCState := ps.foldl (updateCard T) s

/-- `clearCardMap`. -/
def clearCardMap : GCState :=
  { s with cards := fun a =>
      if s.heap.cardMap ≤ a ∧ a < s.heap.cardMap + s.heap.cardMapLength T then false else s.cards a }

/-- `GC_regionPush`: the old top is saved in the buffer. -/
def regionPush : GCState :=
  { s with regionTop := s.regionTop + T.width / 8, tops := s.regionTop :: s.tops }

/-- `GC_regionPop`: what is above the saved top is gone. -/
def regionPop : GCState :=
  let top := s.tops.headD s.regionBuffer.lo
  { s with
    objects := fun p => if s.regionBuffer.Has p ∧ top < p then none else s.objects p
    regionTop := top
    tops := s.tops.tail }

end GCState

/-! ## Marks -/

/-- The pointers whose cards the translation of an `Update` marks: that of the object, if the type of the
value is one of object pointers. -/
def updateMarks (markCards isObjptr : Bool) (base : ℕ) : List ℕ :=
  if markCards && isObjptr then [base] else []

/-- The pointers whose cards `GC_sequenceCopy` marks. -/
def sequenceCopyMarks (numObjptrs l ad : ℕ) : List ℕ := if numObjptrs > 0 ∧ l > 0 then [ad] else []

/-! ## Collections -/

/-- A pointer to an object that is moved if it is in `src`. -/
def Moved (src dst : Area) (fwd : ℕ → ℕ) (p size p' : ℕ) : Prop :=
  (src.Has p → p' = fwd p ∧ dst.lo < p' ∧ p' + size ≤ dst.hi) ∧ (¬ src.Has p → p' = p)

/-- An object whose pointers into `src` are forwarded. -/
def Forwarded (src dst : Area) (fwd : ℕ → ℕ) (o o' : Object) : Prop :=
  o' = o.mapSlots (fun sl => if isObjptr sl.2 = true ∧ src.Has sl.2 then fwd sl.2 else sl.2) ∧
    ∀ sl ∈ o.slots, isObjptr sl.2 = true → src.Has sl.2 → dst.Has (fwd sl.2)

/-- What is left after objects were copied from one area to another: objects from before, some of them
moved; those that were visited have their pointers forwarded. -/
structure Copied (src dst : Area) (fwd : ℕ → ℕ) (visited : ℕ → Object → Prop) (s s' : GCState) :
    Prop where
  objects : ∀ p' o', s'.objects p' = some o' → ∃ p o, s.objects p = some o ∧
    Moved src dst fwd p o.size p' ∧ (visited p o → Forwarded src dst fwd o o') ∧
      (¬ visited p o → o' = o)
  current : ∃ o, s'.objects s'.current = some o ∧ o.tag = .stack

namespace GCState

variable (T : Target)

/-- A minor collection looks at the slots of an object: not if the object is in the old generation and no
card of it is marked.  The walk over the region buffer takes the bases that `GC_regionPush` saves there
for headers, so `walked`, what it gets to, is left open. -/
def Visited (s : GCState) (walked : ℕ → Prop) (p : ℕ) (o : Object) : Prop :=
  (s.regionBuffer.Has p → walked p) ∧
    (s.oldGen.Has p → s.isCardMarked T p ∨ ∃ sl ∈ o.slots, s.isCardMarked T (p + sl.1))

/-- `minorCheneyCopyGC`.  If there is no minor collection, the nursery joins the old generation. -/
inductive Minor (s : GCState) : GCState → Prop
  | join : s.canMinor = false → Minor s { s with
      heap := { s.heap with oldGenSize := s.heap.oldGenSize + (s.frontier - s.heap.nursery) } }
  | copy {s' : GCState} {fwd : ℕ → ℕ} {walked : ℕ → Prop} {bytesCopied : ℕ} : s.canMinor = true →
      bytesCopied ≤ s.frontier - s.heap.nursery →
      Copied s.nursery ⟨s.heap.oldGenEnd, s.heap.oldGenEnd + bytesCopied⟩ fwd (s.Visited T walked) s s' →
      s' = { s with
        heap := { s.heap with oldGenSize := s.heap.oldGenSize + bytesCopied }
        objects := s'.objects
        current := s'.current } → Minor s s'

/-- `majorGC`, which may move and resize the heap, and sets the card map. -/
inductive Major (s : GCState) : GCState → Prop
  | mk {s' : GCState} {fwd : ℕ → ℕ} {walked : ℕ → Prop} {h : Heap} : h.WellFormed T →
      h.oldGenEnd ≤ h.limit → Area.Disjoint ⟨h.start, h.limit⟩ s.regionBuffer →
      Area.Disjoint ⟨h.start, h.limit⟩ s.statics →
      Copied s.oldGen ⟨h.start, h.oldGenEnd⟩ fwd (fun p _ => s.regionBuffer.Has p → walked p) s s' →
      s' = { { s with heap := h }.clearCardMap T with
        objects := s'.objects
        current := s'.current } → Major s s'

/-- `setGCStateCurrentHeap`: the nursery is laid out behind the bytes that are requested for the old
generation. -/
inductive SetHeap (s : GCState) (requested : ℕ) : GCState → Prop
  | generational {nursery : ℕ} : s.heap.oldGenEnd + requested ≤ nursery → nursery ≤ s.heap.limit →
      SetHeap s requested { s.clearCardMap T with
        heap := { s.heap with nursery := nursery }, frontier := nursery, canMinor := true }
  | whole : s.heap.oldGenEnd + requested ≤ s.heap.limit → SetHeap s requested { s with
      heap := { s.heap with nursery := s.heap.oldGenEnd + requested }
      frontier := s.heap.oldGenEnd + requested
      canMinor := false }

/-- The bytes requested for the old generation are used: for a sequence, whose pointers are bogus, and
for a larger copy of the current stack (`growStackCurrent`), which its thread is made to point to. -/
structure Fills (s : GCState) (requested : ℕ) (s' : GCState) : Prop where
  state : s' = { s with
    heap := { s.heap with oldGenSize := s.heap.oldGenSize + requested }
    objects := s'.objects
    current := s'.current }
  objects : ∀ p o', s'.objects p = some o' →
    (∃ o, s.objects p = some o ∧ (o' = o ∨ ∃ offset q,
      Area.Has ⟨s.heap.oldGenEnd, s.heap.oldGenEnd + requested⟩ q ∧ o' = o.store offset q)) ∨
    (o'.mode ≠ .stack ∧ s.heap.oldGenEnd < p ∧ p + o'.size ≤ s.heap.oldGenEnd + requested ∧
      ∀ sl ∈ o'.slots, sl.2 = bogusObjptr ∨
        ∃ p₀ o₀, s.objects p₀ = some o₀ ∧ o₀.tag = .stack ∧ ∃ sl₀ ∈ o₀.slots, sl.2 = sl₀.2)
  current : ∃ o, s'.objects s'.current = some o ∧ o.tag = .stack

/-- `performGC`, up to the mark for the current stack. -/
inductive Collects (s : GCState) : GCState → Prop
  | minor {s₁ s₂ s₃ : GCState} {requested : ℕ} : Minor T s s₁ → SetHeap T s₁ requested s₂ →
      Fills s₂ requested s₃ → Collects s s₃
  | major {s₁ s₂ s₃ s₄ : GCState} {requested : ℕ} : Minor T s s₁ → Major T s₁ s₂ →
      SetHeap T s₂ requested s₃ → Fills s₃ requested s₄ → Collects s s₄

end GCState

/-! ## Steps -/

/-- What the mutator and the runtime do. -/
inductive Action where
  | update (base offset v : ℕ) (isObjptr : Bool)
  | sequenceCopy (ad ds as ss l : ℕ)
  | allocate
  | sequenceAllocate
  | allocateStack
  | regionPush
  | regionPop
  | storeFrame
  | switchToThread
  | collect

/-- A step, with the pointers whose cards it marks. -/
inductive Step (T : Target) : GCState → Action → List ℕ → GCState → Prop
  /-- An `Update`, of a field or of an element of a sequence. -/
  | update {s : GCState} {base offset v : ℕ} {o : Object} {isObjptr : Bool} :
      s.objects base = some o → o.tag ≠ .stack →
      (isObjptr = true ↔ ∃ sl ∈ o.slots, sl.1 = offset) → s.Held v →
      Step T s (.update base offset v isObjptr) (updateMarks true isObjptr base)
        ((s.updateCards T (updateMarks true isObjptr base)).write base (o.store offset v))
  /-- `GC_sequenceCopy`. -/
  | sequenceCopy {s : GCState} {ad as bytesNonObjptrs numObjptrs ds ss l : ℕ} {o src : Object} :
      s.objects ad = some o → s.objects as = some src →
      o.tag = .sequence bytesNonObjptrs numObjptrs → src.tag = .sequence bytesNonObjptrs numObjptrs →
      (bytesNonObjptrs + numObjptrs * T.objptrSize) * (ds + l) ≤ o.size →
      Step T s (.sequenceCopy ad ds as ss l) (sequenceCopyMarks numObjptrs l ad)
        ((s.markCards T (sequenceCopyMarks numObjptrs l ad)).write ad
          (o.copy src (bytesNonObjptrs + numObjptrs * T.objptrSize) ds ss l))
  /-- An object, a short sequence or a stack, in the nursery. -/
  | allocate {s : GCState} {p frontier : ℕ} {o : Object} : o.mode ≠ .stack → s.frontier < p →
      p + o.size ≤ frontier → frontier ≤ s.heap.limit → (∀ sl ∈ o.slots, s.Held sl.2) →
      Step T s .allocate [] { s.write p o with frontier := frontier }
  /-- `GC_sequenceAllocate` of a long sequence, which goes to the old generation. -/
  | sequenceAllocate {s : GCState} {p size ensureBytesFree : ℕ} {o : Object} : o.mode ≠ .stack →
      s.hasHeapBytesFree size ensureBytesFree → s.heap.oldGenEnd < p →
      p + o.size ≤ s.heap.oldGenEnd + size → (∀ sl ∈ o.slots, sl.2 = bogusObjptr) →
      Step T s .sequenceAllocate [] { s.write p o with
        heap := { s.heap with oldGenSize := s.heap.oldGenSize + size } }
  /-- An object of mode `stack`.  To overrun the buffer is no step. -/
  | allocateStack {s : GCState} {p : ℕ} {o : Object} : o.mode = .stack → o.tag = .normal →
      s.regionTop < p → p + o.size ≤ s.regionBuffer.hi → (∀ sl ∈ o.slots, s.Held sl.2) →
      Step T s .allocateStack [] { s.write p o with regionTop := p + o.size }
  | regionPush {s : GCState} : s.regionTop + T.width / 8 ≤ s.regionBuffer.hi →
      Step T s .regionPush [] (s.regionPush T)
  | regionPop {s : GCState} : Step T s .regionPop [] s.regionPop
  /-- A store into a frame of the current stack. -/
  | storeFrame {s : GCState} {offset v : ℕ} {o : Object} : s.objects s.current = some o →
      o.tag = .stack → s.Held v → Step T s .storeFrame [] (s.write s.current (o.store offset v))
  /-- `switchToThread`, to the stack of the thread. -/
  | switchToThread {s : GCState} {p : ℕ} {o : Object} : s.objects p = some o → o.tag = .stack →
      Step T s .switchToThread [p] (GCState.markCard T { s with current := p } p)
  /-- `performGC`; the thread is that of a stack which grew. -/
  | collect {s s' : GCState} {thread : Option ℕ} : GCState.Collects T s s' →
      (∀ p ∈ thread, ∃ o, s'.objects p = some o ∧ o.mode ≠ .stack ∧ 0 < o.size) →
      Step T s .collect (thread.toList ++ [s'.current]) (s'.markCards T (thread.toList ++ [s'.current]))

/-- A step of a run. -/
structure Taken where
  state : GCState
  action : Action
  marks : List ℕ
  next : GCState

/-- A run: the steps taken from a state, and the state they end in. -/
inductive Run (T : Target) (s₀ : GCState) : List Taken → GCState → Prop
  | start : Run T s₀ [] s₀
  | step {l : List Taken} {s s' : GCState} {a : Action} {marks : List ℕ} : Run T s₀ l s →
      Step T s a marks s' → Run T s₀ (l ++ [⟨s, a, marks, s'⟩]) s'

end MLton.Runtime
