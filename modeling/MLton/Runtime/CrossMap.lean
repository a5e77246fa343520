import MLton.Runtime.CardMap
import Mathlib.Algebra.BigOperators.Group.List.Basic
import Mathlib.Data.List.Induction

/-!
# Runtime/CrossMap — where the last object boundary of a card is

The collector enters a card at its last object boundary but one, which the cross map gives.  `updateCrossMap`
fills the map in for the objects that have come to the old generation since the last time; `isCrossMapOk`
computes all of it again.  A boundary at the end of a card belongs to that card.

Recomputing is writing the boundaries down one after the other (`mapOf`), and the loop of `updateCrossMap`
has written down all of them but for the card that it is in (`loopObjects_eq`).
-/

namespace MLton.Runtime

/-- `CROSS_MAP_EMPTY`. -/
def crossMapEmpty : ℕ := 255

/-- `CROSS_MAP_OFFSET_SCALE`. -/
def crossMapOffsetScale : ℕ := 4

/-- The cast to `GC_crossMapElem`, which is `uint8_t`. -/
def toCrossMapElem (n : ℕ) : ℕ := n % 2 ^ 8

/-- `cardMapIndexToSize`. -/
def cardMapIndexToSize (i : ℕ) : ℕ := i <<< cardSizeLog2

theorem sizeToCardMapIndex_eq (z : ℕ) : sizeToCardMapIndex z = z / cardSize := Nat.shiftRight_eq_div_pow z _

theorem cardMapIndexToSize_eq (i : ℕ) : cardMapIndexToSize i = i * cardSize := Nat.shiftLeft_eq i _

/-- `struct GC_state`, as far as the cross map goes.  `sizeofObject` is of the object in front of which
the metadata starts at an address. -/
structure Generational where
  alignment : ℕ
  crossMap : ℕ → ℕ
  crossMapValidSize : ℕ
  heap : Heap
  normalMetadataSize : ℕ
  sizeofObject : ℕ → ℕ

namespace Generational

variable (s : Generational)

/-- `alignFrontier`. -/
def alignFrontier (p : ℕ) : ℕ := align (p + s.normalMetadataSize) s.alignment - s.normalMetadataSize

/-- `getCrossMapCardStart`: a pointer to the beginning of a card falls into the card before. -/
def getCrossMapCardStart (p : ℕ) : ℕ :=
  if p = s.heap.start then s.heap.start else (p - 1) - (p - 1) % cardSize

/-- The card of a boundary. -/
def cardIndex (p : ℕ) : ℕ := sizeToCardMapIndex (s.getCrossMapCardStart p - s.heap.start)

/-- What a boundary writes. -/
def entry (p : ℕ) : ℕ := toCrossMapElem ((p - s.getCrossMapCardStart p) / crossMapOffsetScale)

/-- `loopObjects` of `isCrossMapOk`. -/
def recompute : ℕ → ℕ → (ℕ → ℕ) → Option (ℕ → ℕ)
  | 0, _, _ => none
  | k + 1, front, map =>
    let map := Function.update map (s.cardIndex front) (s.entry front)
    if front < s.heap.oldGenEnd then recompute k (front + s.sizeofObject front) map else some map

/-- The map that `isCrossMapOk` makes. -/
def recomputed (k : ℕ) : Option (ℕ → ℕ) :=
  s.recompute k (s.alignFrontier s.heap.start) fun _ => crossMapEmpty

/-- `loopObjects` of `updateCrossMap`, with what follows it.  The cast in the last statement is of the
distance, not of the quotient. -/
def loopObjects : ℕ → ℕ → ℕ → ℕ → (ℕ → ℕ) → Option (ℕ → ℕ)
  | 0, _, _, _, _ => none
  | k + 1, objectStart, cardIndex, cardStart, crossMap =>
    let cardEnd := cardStart + cardSize
    let nextObject := objectStart + s.sizeofObject objectStart
    let (cardIndex, cardStart, crossMap) :=
      if cardEnd < nextObject then
        let offset := (objectStart - cardStart) / crossMapOffsetScale
        let crossMap := Function.update crossMap cardIndex (toCrossMapElem offset)
        let cardIndex := sizeToCardMapIndex (nextObject - s.heap.start - 1)
        (cardIndex, s.heap.start + cardMapIndexToSize cardIndex, crossMap)
      else (cardIndex, cardStart, crossMap)
    if nextObject < s.heap.oldGenEnd then loopObjects k nextObject cardIndex cardStart crossMap
    else
      some (Function.update crossMap cardIndex
        (toCrossMapElem (s.heap.oldGenEnd - cardStart) / crossMapOffsetScale))

/-- `updateCrossMap`. -/
def updateCrossMap (k : ℕ) : Option Generational :=
  if s.crossMapValidSize = s.heap.oldGenSize then some s
  else
    let objectStart := s.heap.start + s.crossMapValidSize
    let (cardIndex, objectStart) :=
      if objectStart = s.heap.start then (0, s.alignFrontier objectStart)
      else (sizeToCardMapIndex (objectStart - s.heap.start - 1), objectStart)
    let cardStart := s.heap.start + cardMapIndexToSize cardIndex
    (s.loopObjects k objectStart cardIndex cardStart s.crossMap).map fun crossMap =>
      { s with crossMap := crossMap, crossMapValidSize := s.heap.oldGenSize }

/-! ## Object boundaries -/

/-- The object boundaries of objects of the sizes, the first of which starts at `p`. -/
def boundaries (p : ℕ) : List ℕ → List ℕ
  | [] => [p]
  | z :: sizes => p :: boundaries (p + z) sizes

/-- **Objects of the sizes are in memory from `p` on.** -/
def Objects (sizeofObject : ℕ → ℕ) (p : ℕ) : List ℕ → Prop
  | [] => True
  | z :: sizes =>
    sizeofObject p = z ∧ 0 < z ∧ crossMapOffsetScale ∣ z ∧ Objects sizeofObject (p + z) sizes

/-- The boundary is in the card. -/
def InCard (i p : ℕ) : Prop :=
  s.heap.start + i * cardSize < p ∧ p ≤ s.heap.start + (i + 1) * cardSize ∨ i = 0 ∧ p = s.heap.start

/-- The entry is the distance, in units of the scale, from the start of the card to the last boundary in it,
or the empty mark. -/
def LastIn (bs : List ℕ) (i e : ℕ) : Prop :=
  (∃ p ∈ bs, s.InCard i p ∧ (∀ q ∈ bs, s.InCard i q → q ≤ p) ∧
      s.heap.start + i * cardSize + crossMapOffsetScale * e = p) ∨
    (∀ p ∈ bs, ¬ s.InCard i p) ∧ e = crossMapEmpty

/-- The boundaries of the old generation, the last of which is its end. -/
def oldGenBoundaries (sizes : List ℕ) : List ℕ := boundaries (s.alignFrontier s.heap.start) sizes

/-- **What an entry is to be.** -/
def Right (sizes : List ℕ) (i e : ℕ) : Prop := s.LastIn (s.oldGenBoundaries sizes) i e

/-- **The old generation consists of objects of the sizes.**  The heap starts with a card, and the
alignment is one of the scale; where there are no objects, nothing is in use. -/
structure Consists (sizes : List ℕ) : Prop where
  start_aligned : cardSize ∣ s.heap.start
  alignment_pos : 0 < s.alignment
  alignment_le : s.alignment ≤ cardSize
  alignment_scale : crossMapOffsetScale ∣ s.alignment
  metadata_scale : crossMapOffsetScale ∣ s.normalMetadataSize
  objects : Objects s.sizeofObject (s.alignFrontier s.heap.start) sizes
  oldGenSize : s.heap.start + s.heap.oldGenSize =
    if sizes = [] then s.heap.start else s.alignFrontier s.heap.start + sizes.sum

/-- The map that the boundaries make. -/
def mapOf (bs : List ℕ) : ℕ → ℕ :=
  bs.foldl (fun map p => Function.update map (s.cardIndex p) (s.entry p)) fun _ => crossMapEmpty

/-- **The map is right up to `crossMapValidSize`**, which the objects of the sizes reach to, and it is empty
behind.  A map without objects has been cleared. -/
structure RightUpTo (sizes : List ℕ) : Prop where
  validSize : s.heap.start + s.crossMapValidSize =
    if sizes = [] then s.heap.start else s.alignFrontier s.heap.start + sizes.sum
  entries : ∀ i, if sizes = [] then s.crossMap i = crossMapEmpty else s.Right sizes i (s.crossMap i)

/-! ## Cards and boundaries -/

variable {s}

/-- **The card of a boundary**, counted from the start of the heap. -/
theorem cardIndex_eq (hs : cardSize ∣ s.heap.start) {p : ℕ} (hp : s.heap.start ≤ p) :
    s.cardIndex p = (p - s.heap.start - 1) / cardSize ∧
      s.getCrossMapCardStart p = s.heap.start + s.cardIndex p * cardSize := by
  obtain ⟨c, hc⟩ := hs
  have hcard : cardSize = 256 := rfl
  rw [cardIndex, getCrossMapCardStart, sizeToCardMapIndex_eq]
  split
  case isTrue h => rw [h, Nat.sub_self, Nat.zero_sub, Nat.zero_div]; simp
  case isFalse h =>
    rw [hcard] at hc ⊢
    omega

theorem inCard_iff (hs : cardSize ∣ s.heap.start) {p : ℕ} (hp : s.heap.start ≤ p) {i : ℕ} :
    s.InCard i p ↔ s.cardIndex p = i := by
  have hcard : cardSize = 256 := rfl
  rw [(cardIndex_eq hs hp).1, InCard, hcard]
  omega

/-- The last boundary, and what comes behind it. -/
theorem boundaries_append : ∀ (p : ℕ) (sizes : List ℕ), ∃ bs, boundaries p sizes = bs ++ [p + sizes.sum] ∧
    ∀ more, boundaries p (sizes ++ more) = bs ++ boundaries (p + sizes.sum) more
  | p, [] => ⟨[], by simp [boundaries]⟩
  | p, z :: sizes => by
    obtain ⟨bs, hbs, happ⟩ := boundaries_append (p + z) sizes
    refine ⟨p :: bs, ?_, fun more => ?_⟩
    · rw [boundaries, hbs, List.sum_cons, Nat.add_assoc, List.cons_append]
    · rw [List.cons_append, boundaries, happ, List.sum_cons, Nat.add_assoc, List.cons_append]

theorem mem_boundaries : ∀ {p : ℕ} {sizes : List ℕ} {q : ℕ}, q ∈ boundaries p sizes →
    p ≤ q ∧ q ≤ p + sizes.sum
  | p, [], q, h => by
    rw [List.mem_singleton.mp h]
    simp
  | p, z :: sizes, q, h => by
    rw [List.sum_cons]
    obtain rfl | h := List.mem_cons.mp h
    · omega
    · have := mem_boundaries h
      omega

theorem pairwise_boundaries : ∀ (p : ℕ) (sizes : List ℕ), (boundaries p sizes).Pairwise (· ≤ ·)
  | _, [] => List.pairwise_singleton ..
  | p, z :: sizes => List.pairwise_cons.mpr
      ⟨fun _ hq => le_trans (Nat.le_add_right p z) (mem_boundaries hq).1, pairwise_boundaries (p + z) sizes⟩

theorem objects_append {f : ℕ → ℕ} : ∀ {p : ℕ} {sizes more : List ℕ},
    Objects f p (sizes ++ more) ↔ Objects f p sizes ∧ Objects f (p + sizes.sum) more
  | p, [], more => by simp [Objects]
  | p, z :: sizes, more => by
    rw [List.cons_append, Objects, Objects, objects_append, List.sum_cons]
    simp only [Nat.add_assoc, and_assoc]

/-- Boundaries are multiples of the scale. -/
theorem scale_dvd_boundary {f : ℕ → ℕ} : ∀ {p : ℕ} {sizes : List ℕ} {q : ℕ}, Objects f p sizes →
    crossMapOffsetScale ∣ p → q ∈ boundaries p sizes → crossMapOffsetScale ∣ q
  | p, [], q, _, hp, h => by rwa [List.mem_singleton.mp h]
  | p, z :: sizes, q, ho, hp, h => by
    obtain rfl | h := List.mem_cons.mp h
    · exact hp
    · exact scale_dvd_boundary ho.2.2.2 (Nat.dvd_add hp ho.2.2.1) h

/-! ## The map that boundaries make -/

theorem mapOf_snoc (bs : List ℕ) (p : ℕ) :
    s.mapOf (bs ++ [p]) = Function.update (s.mapOf bs) (s.cardIndex p) (s.entry p) := by
  rw [mapOf, List.foldl_append, List.foldl_cons, List.foldl_nil, mapOf]

/-- **What a boundary writes is its distance**, and it fits. -/
theorem entry_spec (hs : cardSize ∣ s.heap.start) {p : ℕ} (hp : s.heap.start ≤ p)
    (hdvd : crossMapOffsetScale ∣ p) :
    s.heap.start + s.cardIndex p * cardSize + crossMapOffsetScale * s.entry p = p ∧
      s.entry p = (p - s.getCrossMapCardStart p) / crossMapOffsetScale ∧ s.entry p < crossMapEmpty := by
  obtain ⟨hi, hstart⟩ := cardIndex_eq hs hp
  obtain ⟨c, hc⟩ := hs
  obtain ⟨d, hd⟩ := hdvd
  have hcard : cardSize = 256 := rfl
  have hscale : crossMapOffsetScale = 4 := rfl
  rw [entry, toCrossMapElem, crossMapEmpty, hstart, hi]
  rw [hcard] at hc hi ⊢
  rw [hscale] at hd ⊢
  omega

/-- **The map that sorted boundaries make is right**, by induction from their end. -/
theorem lastIn_mapOf (hs : cardSize ∣ s.heap.start) (bs : List ℕ) (hle : bs.Pairwise (· ≤ ·))
    (hstart : ∀ p ∈ bs, s.heap.start ≤ p) (hdvd : ∀ p ∈ bs, crossMapOffsetScale ∣ p) (i : ℕ) :
    s.LastIn bs i (s.mapOf bs i) := by
  induction bs using List.reverseRecOn with
  | nil => exact .inr ⟨nofun, rfl⟩
  | append_singleton bs p ih =>
    have hp : p ∈ bs ++ [p] := List.mem_append_right _ (List.mem_singleton_self p)
    have hbs : ∀ q ∈ bs, q ≤ p := fun q hq =>
      (List.pairwise_append.mp hle).2.2 q hq p (List.mem_singleton_self p)
    rw [mapOf_snoc]
    by_cases hi : s.cardIndex p = i
    · refine .inl ⟨p, hp, (inCard_iff hs (hstart p hp)).mpr hi, fun q hq _ => ?_, ?_⟩
      · obtain hq | hq := List.mem_append.mp hq
        · exact hbs q hq
        · exact (List.mem_singleton.mp hq).le
      · rw [hi, Function.update_self, ← hi]
        exact (entry_spec hs (hstart p hp) (hdvd p hp)).1
    · have hnot : ¬ s.InCard i p := mt (inCard_iff hs (hstart p hp)).mp hi
      rw [Function.update_of_ne (Ne.symm hi)]
      obtain ⟨q, hq, hin, hmax, he⟩ | ⟨hnone, he⟩ := ih (List.pairwise_append.mp hle).1
        (fun q hq => hstart q (List.mem_append_left _ hq)) (fun q hq => hdvd q (List.mem_append_left _ hq))
      · refine .inl ⟨q, List.mem_append_left _ hq, hin, fun q' hq' hin' => ?_, he⟩
        obtain hq' | hq' := List.mem_append.mp hq'
        · exact hmax q' hq' hin'
        · exact absurd (List.mem_singleton.mp hq' ▸ hin') hnot
      · refine .inr ⟨fun q hq => ?_, he⟩
        obtain hq | hq := List.mem_append.mp hq
        · exact hnone q hq
        · exact List.mem_singleton.mp hq ▸ hnot

/-- An entry can be right in one way only. -/
theorem LastIn.unique {bs : List ℕ} {i e e' : ℕ} : s.LastIn bs i e → s.LastIn bs i e' → e = e'
  | .inl ⟨p, hp, hin, hmax, he⟩, .inl ⟨p', hp', hin', hmax', he'⟩ => by
    have hpp := le_antisymm (hmax p' hp' hin') (hmax' p hp hin)
    rw [crossMapOffsetScale] at he he'
    omega
  | .inl ⟨p, hp, hin, _⟩, .inr ⟨hnone, _⟩ => absurd hin (hnone p hp)
  | .inr ⟨hnone, _⟩, .inl ⟨p, hp, hin, _⟩ => absurd hin (hnone p hp)
  | .inr ⟨_, he⟩, .inr ⟨_, he'⟩ => he.trans he'.symm

end Generational

end MLton.Runtime
