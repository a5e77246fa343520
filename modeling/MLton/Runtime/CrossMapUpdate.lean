import MLton.Runtime.CrossMap

/-!
# Runtime/CrossMapUpdate — filling the cross map in, and its last entry

The loop leaves the map of all boundaries, but for the entry of the card that the old generation ends in:
that is the distance reduced to a byte before it is divided (`lastEntry`).  A distance of a whole card is
reduced to zero, so the entry is wrong exactly where the old generation ends on a card boundary.  The next
call writes it again, so what the map is does not depend on how often it has been updated.
-/

namespace MLton.Runtime.Generational

variable {s : Generational} {sizes done new : List ℕ}

/-! ## The loops -/

/-- **The map that `isCrossMapOk` makes is that of the boundaries.** -/
theorem recompute_eq : ∀ (sizes : List ℕ) (p : ℕ) (bs : List ℕ) (k : ℕ), sizes.length < k →
    Objects s.sizeofObject p sizes → (if sizes = [] then s.heap.oldGenEnd ≤ p else s.heap.oldGenEnd = p + sizes.sum) →
    s.recompute k p (s.mapOf bs) = some (s.mapOf (bs ++ boundaries p sizes))
  | [], p, bs, k + 1, _, _, he => by
    have hlt : ¬ p < s.heap.oldGenEnd := not_lt.mpr he
    simp only [recompute, boundaries, mapOf_snoc, if_neg hlt]
  | z :: sizes, p, bs, k + 1, hk, ⟨hz, hpos, _, ho⟩, he => by
    have he : s.heap.oldGenEnd = p + z + sizes.sum := by simpa [Nat.add_assoc] using he
    have hlt : p < s.heap.oldGenEnd := by omega
    have hrec := recompute_eq sizes (p + z) (bs ++ [p]) k (by simpa using hk) ho (by
      split
      case isTrue h => rw [he, h, List.sum_nil, Nat.add_zero]
      case isFalse => exact he)
    rw [mapOf_snoc] at hrec
    simp only [recompute, if_pos hlt, hz, hrec, boundaries, List.append_assoc, List.singleton_append]

/-- What the last statement stores for the card that the old generation ends in. -/
def lastEntry (s : Generational) (p : ℕ) : ℕ :=
  toCrossMapElem (p - s.getCrossMapCardStart p) / crossMapOffsetScale

/-- The map that an update leaves. -/
def updatedMap (s : Generational) (sizes : List ℕ) : ℕ → ℕ :=
  let p := s.alignFrontier s.heap.start + sizes.sum
  Function.update (s.mapOf (s.oldGenBoundaries sizes)) (s.cardIndex p) (s.lastEntry p)

/-- The card of the next boundary, when the object does not end behind the card. -/
theorem cardIndex_next (hs : cardSize ∣ s.heap.start) {p z : ℕ} (hp : s.heap.start ≤ p)
    (h : p + z ≤ s.getCrossMapCardStart p + cardSize) :
    s.cardIndex (p + z) = s.cardIndex p ∧ s.getCrossMapCardStart (p + z) = s.getCrossMapCardStart p := by
  have hle : s.heap.start ≤ p + z := le_trans hp (Nat.le_add_right _ _)
  have hcard : s.cardIndex (p + z) = s.cardIndex p := by
    rw [(cardIndex_eq hs hp).2] at h
    rw [(cardIndex_eq hs hp).1] at h ⊢
    rw [(cardIndex_eq hs hle).1]
    have hc : cardSize = 256 := rfl
    rw [hc] at h ⊢
    omega
  exact ⟨hcard, by rw [(cardIndex_eq hs hle).2, (cardIndex_eq hs hp).2, hcard]⟩

/-- **The loop of `updateCrossMap`**, by induction on the objects that are left.  In front of an object, the
map is that of the boundaries so far off the card of the last one. -/
theorem loopObjects_eq (hs : cardSize ∣ s.heap.start) : ∀ (new : List ℕ) (z p : ℕ) (bs : List ℕ)
    (map : ℕ → ℕ) (k : ℕ), new.length < k → Objects s.sizeofObject p (z :: new) → s.heap.start ≤ p →
    s.heap.oldGenEnd = p + z + new.sum → (∀ i, i ≠ s.cardIndex p → map i = s.mapOf (bs ++ [p]) i) →
    s.loopObjects k p (s.cardIndex p) (s.getCrossMapCardStart p) map =
      some (Function.update (s.mapOf (bs ++ boundaries p (z :: new))) (s.cardIndex s.heap.oldGenEnd)
        (s.lastEntry s.heap.oldGenEnd)) := by
  intro new z p bs map k hk hobj hp hend hmap
  obtain ⟨k, rfl⟩ : ∃ k', k = k' + 1 := ⟨k - 1, by omega⟩
  obtain ⟨hz, hpos, -, ho⟩ := hobj
  have hle : s.heap.start ≤ p + z := le_trans hp (Nat.le_add_right _ _)
  -- the card that the loop goes on with, and the map
  obtain ⟨map', hstep, hmap'⟩ : ∃ map',
      (if s.getCrossMapCardStart p + cardSize < p + z then
        (sizeToCardMapIndex (p + z - s.heap.start - 1),
          s.heap.start + cardMapIndexToSize (sizeToCardMapIndex (p + z - s.heap.start - 1)),
          Function.update map (s.cardIndex p)
            (toCrossMapElem ((p - s.getCrossMapCardStart p) / crossMapOffsetScale)))
      else (s.cardIndex p, s.getCrossMapCardStart p, map)) =
        (s.cardIndex (p + z), s.getCrossMapCardStart (p + z), map') ∧
      ∀ i, i ≠ s.cardIndex (p + z) → map' i = s.mapOf (bs ++ [p] ++ [p + z]) i := by
    split
    case isTrue hlt =>
      refine ⟨Function.update map (s.cardIndex p) (s.entry p), ?_, fun i hi => ?_⟩
      · rw [(cardIndex_eq hs hle).2, (cardIndex_eq hs hle).1, sizeToCardMapIndex_eq, cardMapIndexToSize_eq,
          entry]
      · rw [mapOf_snoc _ (p + z), Function.update_of_ne hi]
        by_cases hi' : i = s.cardIndex p
        · rw [hi', Function.update_self, mapOf_snoc, Function.update_self]
        · rw [Function.update_of_ne hi', hmap i hi']
    case isFalse hlt =>
      obtain ⟨hcard, hstart⟩ := cardIndex_next hs hp (not_lt.mp hlt)
      refine ⟨map, by rw [hcard, hstart], fun i hi => ?_⟩
      rw [mapOf_snoc _ (p + z), Function.update_of_ne hi]
      exact hmap i (hcard ▸ hi)
  simp only [loopObjects, hz, hstep]
  cases new with
  | nil =>
    have hend : s.heap.oldGenEnd = p + z := by simpa using hend
    rw [if_neg (by omega), hend, lastEntry]
    congr 1
    funext i
    by_cases hi : i = s.cardIndex (p + z)
    · rw [hi, Function.update_self, Function.update_self]
    · rw [Function.update_of_ne hi, Function.update_of_ne hi, hmap' i hi]
      simp [boundaries]
  | cons z' new =>
    have hend : s.heap.oldGenEnd = p + z + z' + new.sum := by simpa [Nat.add_assoc] using hend
    rw [if_pos (by have := ho.2.1; omega),
      loopObjects_eq hs new z' (p + z) (bs ++ [p]) map' k (by simpa using hk) ho hle hend hmap']
    simp [boundaries]

/-! ## One call -/

/-- **The first object starts in the first card.** -/
theorem Consists.alignFrontier (h : s.Consists sizes) :
    s.heap.start ≤ s.alignFrontier s.heap.start ∧ s.cardIndex (s.alignFrontier s.heap.start) = 0 ∧
      crossMapOffsetScale ∣ s.alignFrontier s.heap.start := by
  have hge : s.heap.start + s.normalMetadataSize ≤ align (s.heap.start + s.normalMetadataSize) s.alignment :=
    le_align h.alignment_pos
  have hlt : align (s.heap.start + s.normalMetadataSize) s.alignment ≤
      s.heap.start + s.normalMetadataSize + (s.alignment - 1) := Nat.sub_le ..
  have hdvd : s.alignment ∣ align (s.heap.start + s.normalMetadataSize) s.alignment := Nat.dvd_sub_mod _
  have hpos := h.alignment_pos
  have hal := h.alignment_le
  have hle : s.heap.start ≤ s.alignFrontier s.heap.start := by
    unfold Generational.alignFrontier
    omega
  refine ⟨hle, ?_, Nat.dvd_sub (dvd_trans h.alignment_scale hdvd) h.metadata_scale⟩
  rw [(cardIndex_eq h.start_aligned hle).1]
  refine Nat.div_eq_of_lt ?_
  unfold Generational.alignFrontier
  omega

/-- There is something in an old generation with objects. -/
theorem Objects.sum_pos {f : ℕ → ℕ} {p : ℕ} : ∀ {sizes : List ℕ}, Objects f p sizes → sizes ≠ [] → 0 < sizes.sum
  | _ :: _, h, _ => Nat.add_pos_left h.2.1 _

theorem Consists.oldGenEnd (h : s.Consists sizes) (hne : sizes ≠ []) :
    s.heap.oldGenEnd = s.alignFrontier s.heap.start + sizes.sum := by
  have := h.oldGenSize
  rwa [if_neg hne] at this

/-- The map of the boundaries is right. -/
theorem Consists.right_mapOf (h : s.Consists sizes) (i : ℕ) :
    s.Right sizes i (s.mapOf (s.oldGenBoundaries sizes) i) := by
  obtain ⟨hle, -, hdvd⟩ := h.alignFrontier
  exact lastIn_mapOf h.start_aligned _ (pairwise_boundaries _ _)
    (fun p hp => le_trans hle (mem_boundaries hp).1)
    (fun p hp => scale_dvd_boundary h.objects hdvd hp) i

/-- **What an update relies on**: up to `crossMapValidSize`, which the objects of the sizes reach to, the map
is that of the boundaries, but for the card of the last one. -/
structure Filled (s : Generational) (sizes : List ℕ) : Prop where
  validSize : s.heap.start + s.crossMapValidSize =
    if sizes = [] then s.heap.start else s.alignFrontier s.heap.start + sizes.sum
  entries : ∀ i, i ≠ s.cardIndex (s.alignFrontier s.heap.start + sizes.sum) →
    s.crossMap i = s.mapOf (s.oldGenBoundaries sizes) i

theorem RightUpTo.filled (hc : s.Consists (done ++ new)) (h : s.RightUpTo done) : s.Filled done where
  validSize := h.validSize
  entries i hi := by
    have hi' := h.entries i
    split at hi'
    case isTrue hdone =>
      rw [hi', hdone, oldGenBoundaries, boundaries, ← List.nil_append [_], mapOf_snoc,
        Function.update_of_ne (by simpa [hdone] using hi)]
      rfl
    case isFalse =>
      obtain ⟨hle, -, hdvd⟩ := hc.alignFrontier
      refine hi'.unique (lastIn_mapOf hc.start_aligned _ (pairwise_boundaries _ _) ?_ ?_ i)
      · exact fun p hp => le_trans hle (mem_boundaries hp).1
      · exact fun p hp => scale_dvd_boundary (objects_append.mp hc.objects).1 hdvd hp

/-- The state with another map, valid for all of the old generation. -/
def withMap (s : Generational) (map : ℕ → ℕ) : Generational :=
  { s with crossMap := map, crossMapValidSize := s.heap.oldGenSize }

theorem Consists.withMap (hc : s.Consists sizes) (map : ℕ → ℕ) : (s.withMap map).Consists sizes :=
  ⟨hc.1, hc.2, hc.3, hc.4, hc.5, hc.6, hc.7⟩

/-- **What one call does.** -/
theorem updateCrossMap_eq (hc : s.Consists (done ++ new)) (hf : s.Filled done) {k : ℕ} (hk : new.length ≤ k) :
    s.updateCrossMap k =
      some (s.withMap (if new = [] then s.crossMap else s.updatedMap (done ++ new))) := by
  have hvalid := hf.validSize
  have hsize := hc.oldGenSize
  cases new with
  | nil =>
    rw [List.append_nil] at hsize
    have heq : s.crossMapValidSize = s.heap.oldGenSize := by omega
    rw [updateCrossMap, if_pos heq, if_pos rfl, withMap, ← heq]
  | cons z new =>
    obtain ⟨hle, hcard, -⟩ := hc.alignFrontier
    have hne : done ++ z :: new ≠ [] := by simp
    have hend := hc.oldGenEnd hne
    obtain ⟨bs, hbs, happ⟩ := boundaries_append (s.alignFrontier s.heap.start) done
    have hobj := (objects_append.mp hc.objects).2
    have hp : s.heap.start ≤ s.alignFrontier s.heap.start + done.sum := le_trans hle (Nat.le_add_right _ _)
    have hloop := loopObjects_eq hc.start_aligned new z (s.alignFrontier s.heap.start + done.sum) bs s.crossMap k
      (Nat.lt_of_succ_le hk) hobj hp (by rw [hend, List.sum_append, List.sum_cons]; omega)
      (fun i hi => by rw [hf.entries i hi, oldGenBoundaries, hbs])
    -- the loop starts behind the last object
    have hstart : (if s.heap.start + s.crossMapValidSize = s.heap.start then
        (0, s.alignFrontier (s.heap.start + s.crossMapValidSize))
      else (sizeToCardMapIndex (s.heap.start + s.crossMapValidSize - s.heap.start - 1),
        s.heap.start + s.crossMapValidSize)) =
        (s.cardIndex (s.alignFrontier s.heap.start + done.sum), s.alignFrontier s.heap.start + done.sum) := by
      rw [hvalid]
      split
      case isTrue hdone => rw [hdone, List.sum_nil, Nat.add_zero, hcard, if_pos rfl]
      case isFalse hdone =>
        have hpos := (objects_append.mp hc.objects).1.sum_pos hdone
        rw [if_neg (by omega), (cardIndex_eq hc.start_aligned hp).1, sizeToCardMapIndex_eq]
    have hneq : s.crossMapValidSize ≠ s.heap.oldGenSize := by
      have hpos := hc.objects.sum_pos hne
      have hpos' := hobj.sum_pos (by simp)
      rw [if_neg hne, List.sum_append] at hsize
      split at hvalid <;> omega
    rw [updateCrossMap, if_neg hneq, if_neg (by simp)]
    simp only [hstart]
    rw [cardMapIndexToSize_eq, ← (cardIndex_eq hc.start_aligned hp).2, hloop, ← happ, hend]
    rfl

/-- **The last statement stores what is right unless the boundary ends its card.** -/
theorem lastEntry_eq_iff (hs : cardSize ∣ s.heap.start) {p : ℕ} (hp : s.heap.start < p) :
    s.lastEntry p = s.entry p ↔ ¬ cardSize ∣ p - s.heap.start := by
  obtain ⟨hi, hstart⟩ := cardIndex_eq hs hp.le
  have hcard : cardSize = 256 := rfl
  have hscale : crossMapOffsetScale = 4 := rfl
  rw [lastEntry, entry, toCrossMapElem, toCrossMapElem, hstart, hi, hcard, hscale]
  omega

/-- **What an update leaves is right unless the old generation ends on a card boundary.** -/
theorem Consists.right_updatedMap_iff (hc : s.Consists sizes) (hne : sizes ≠ []) :
    (∀ i ≤ s.cardIndex s.heap.oldGenEnd, s.Right sizes i (s.updatedMap sizes i)) ↔
      ¬ cardSize ∣ s.heap.oldGenSize := by
  have hend := hc.oldGenEnd hne
  have hpos := hc.objects.sum_pos hne
  obtain ⟨hle, -, -⟩ := hc.alignFrontier
  have hlt : s.heap.start < s.heap.oldGenEnd := by omega
  have hsize : s.heap.oldGenEnd - s.heap.start = s.heap.oldGenSize := Nat.add_sub_cancel_left ..
  obtain ⟨bs, hbs, -⟩ := boundaries_append (s.alignFrontier s.heap.start) sizes
  have hlast : s.mapOf (s.oldGenBoundaries sizes) (s.cardIndex s.heap.oldGenEnd) = s.entry s.heap.oldGenEnd := by
    rw [oldGenBoundaries, hbs, ← hend, mapOf_snoc, Function.update_self]
  rw [← hsize, ← lastEntry_eq_iff hc.start_aligned hlt, updatedMap, ← hend]
  refine ⟨fun h => ?_, fun h i _ => ?_⟩
  · have hr := h _ le_rfl
    rw [Function.update_self] at hr
    exact hr.unique (hlast ▸ hc.right_mapOf _)
  · by_cases hi : i = s.cardIndex s.heap.oldGenEnd
    · rw [hi, Function.update_self, h, ← hlast]
      exact hc.right_mapOf _
    · rw [Function.update_of_ne hi]
      exact hc.right_mapOf _

/-- **The map of an old generation without objects stays empty**, although its end is a boundary. -/
theorem Consists.not_right_empty (hc : s.Consists []) : ¬ s.Right [] 0 crossMapEmpty := by
  obtain ⟨hle, hcard, -⟩ := hc.alignFrontier
  have hin : s.InCard 0 (s.alignFrontier s.heap.start) := (inCard_iff hc.start_aligned hle).mpr hcard
  rintro (⟨p, hp, hinp, -, he⟩ | ⟨hnone, -⟩)
  · have hcs : cardSize = 256 := rfl
    rw [InCard] at hinp
    rw [crossMapOffsetScale, crossMapEmpty] at he
    omega
  · exact hnone _ (List.mem_singleton_self _) hin

/-! ## Runs -/

/-- The call returns. -/
def Updates (s s' : Generational) : Prop := ∃ n, ∀ k ≥ n, s.updateCrossMap k = some s'

theorem Updates.unique {s s' s'' : Generational} : s.Updates s' → s.Updates s'' → s' = s''
  | ⟨n, h⟩, ⟨n', h'⟩ => Option.some.inj ((h _ (le_max_left n n')).symm.trans (h' _ (le_max_right n n')))

theorem updates_of_filled (hc : s.Consists (done ++ new)) (hf : s.Filled done) :
    s.Updates (s.withMap (if new = [] then s.crossMap else s.updatedMap (done ++ new))) :=
  ⟨new.length, fun _ hk => updateCrossMap_eq hc hf hk⟩

/-- **A run of updates while the old generation grows**, from a map that has been cleared; what objects have
come to the old generation lies behind its former end. -/
inductive Reached : Generational → List ℕ → Prop
  | clear {s : Generational} {sizes : List ℕ} : s.Consists sizes → s.crossMapValidSize = 0 →
      (∀ i, s.crossMap i = crossMapEmpty) → Reached s sizes
  | grow {s : Generational} {sizes : List ℕ} (n : ℕ) (f : ℕ → ℕ) (more : List ℕ) : Reached s sizes →
      Consists { s with heap := { s.heap with oldGenSize := n }, sizeofObject := f } (sizes ++ more) →
      Reached { s with heap := { s.heap with oldGenSize := n }, sizeofObject := f } (sizes ++ more)
  | update {s s' : Generational} {sizes : List ℕ} : Reached s sizes → s.Updates s' → Reached s' sizes

/-- The map that the last update has left, if there was one. -/
def leftMap (s : Generational) (sizes : List ℕ) : ℕ → ℕ :=
  if sizes = [] then fun _ => crossMapEmpty else s.updatedMap sizes

theorem filled_leftMap (hmap : s.crossMap = s.leftMap done)
    (hvalid : s.heap.start + s.crossMapValidSize =
      if done = [] then s.heap.start else s.alignFrontier s.heap.start + done.sum) : s.Filled done where
  validSize := hvalid
  entries i hi := by
    rw [hmap, leftMap]
    split
    case isTrue hdone =>
      rw [hdone, oldGenBoundaries, boundaries, ← List.nil_append [_], mapOf_snoc,
        Function.update_of_ne (by simpa [hdone] using hi)]
      rfl
    case isFalse => rw [updatedMap, Function.update_of_ne hi]

/-- **What holds in a run**: the map is what an update has left for the objects up to `crossMapValidSize`. -/
theorem Reached.left (h : Reached s sizes) : s.Consists sizes ∧ ∃ done new, sizes = done ++ new ∧
    s.crossMap = s.leftMap done ∧ s.heap.start + s.crossMapValidSize =
      if done = [] then s.heap.start else s.alignFrontier s.heap.start + done.sum := by
  induction h with
  | clear hc hvalid hmap =>
    exact ⟨hc, [], _, rfl, by rw [leftMap, if_pos rfl]; exact funext hmap, by rw [hvalid, if_pos rfl, Nat.add_zero]⟩
  | grow n f more h hc ih =>
    obtain ⟨-, done, new, rfl, hmap, hvalid⟩ := ih
    exact ⟨hc, done, new ++ more, List.append_assoc .., hmap, hvalid⟩
  | @update s s' sizes h hupdate ih =>
    obtain ⟨hc, done, new, rfl, hmap, hvalid⟩ := ih
    obtain rfl := hupdate.unique (updates_of_filled hc (filled_leftMap hmap hvalid))
    refine ⟨hc.withMap _, done ++ new, [], (List.append_nil _).symm, ?_, hc.oldGenSize⟩
    split
    case isTrue hnew =>
      rw [hnew, List.append_nil]
      exact hmap
    case isFalse hnew =>
      rw [leftMap, if_neg (by simp [hnew])]
      rfl

/-- **After an update, the map is what one call at the end leaves.** -/
theorem Reached.map_eq {s' : Generational} (h : Reached s sizes) (hupdate : s.Updates s') :
    s'.crossMap = s.leftMap sizes := by
  obtain ⟨hc, done, new, rfl, hmap, hvalid⟩ := h.left
  obtain rfl := hupdate.unique (updates_of_filled hc (filled_leftMap hmap hvalid))
  rw [withMap]
  split
  case isTrue hnew => rw [hmap, hnew, List.append_nil]
  case isFalse hnew => rw [leftMap, if_neg (by simp [hnew])]

/-- The same old generation with a cleared map. -/
def cleared (s : Generational) : Generational :=
  { s with crossMap := fun _ => crossMapEmpty, crossMapValidSize := 0 }

theorem Consists.cleared (hc : s.Consists sizes) : s.cleared.Consists sizes :=
  ⟨hc.1, hc.2, hc.3, hc.4, hc.5, hc.6, hc.7⟩

/-- The property that the claim of one call is about: every entry up to the end of the old generation is
right, and as `isCrossMapOk` computes it. -/
def AllRight (s : Generational) (sizes : List ℕ) : Prop :=
  ∀ i ≤ s.cardIndex s.heap.oldGenEnd, s.Right sizes i (s.crossMap i) ∧
    ∃ n, ∀ k ≥ n, ∃ map, s.recomputed k = some map ∧ s.crossMap i = map i

/-- What `isCrossMapOk` computes is what is right. -/
theorem Consists.allRight_iff (hc : s.Consists sizes) :
    s.AllRight sizes ↔ ∀ i ≤ s.cardIndex s.heap.oldGenEnd, s.Right sizes i (s.crossMap i) := by
  refine ⟨fun h i hi => (h i hi).1, fun h i hi => ⟨h i hi, sizes.length + 1, fun k hk => ?_⟩⟩
  have hrec := recompute_eq (s := s) sizes (s.alignFrontier s.heap.start) [] k hk hc.objects (by
    split
    case isTrue hnil =>
      have := hc.oldGenSize
      rw [if_pos hnil] at this
      exact this.trans_le hc.alignFrontier.1
    case isFalse hne => exact hc.oldGenEnd hne)
  exact ⟨_, hrec, (h i hi).unique (hc.right_mapOf i)⟩

theorem Consists.allRight_withMap_iff (hc : s.Consists sizes) {map : ℕ → ℕ} : (s.withMap map).AllRight sizes ↔
    ∀ i ≤ s.cardIndex s.heap.oldGenEnd, s.Right sizes i (map i) := (hc.withMap map).allRight_iff

/-- **Every distance fits an entry**, below the empty mark. -/
theorem Consists.distance_lt (hc : s.Consists sizes) : ∀ p ∈ s.oldGenBoundaries sizes,
    (p - s.getCrossMapCardStart p) / crossMapOffsetScale < crossMapEmpty := by
  obtain ⟨hle, -, hdvd⟩ := hc.alignFrontier
  intro p hp
  obtain ⟨-, he, hlt⟩ := entry_spec hc.start_aligned (le_trans hle (mem_boundaries hp).1)
    (scale_dvd_boundary hc.objects hdvd hp)
  exact he ▸ hlt

/-- **One call makes the map right if and only if** there are objects, and none has come or the old generation
does not end on a card boundary. -/
theorem allRight_of_rightUpTo (hc : s.Consists (done ++ new)) (h : s.RightUpTo done) : ∃ s', s.Updates s' ∧
    (s'.AllRight (done ++ new) ↔ done ++ new ≠ [] ∧
      (s.crossMapValidSize = s.heap.oldGenSize ∨ ¬ cardSize ∣ s.heap.oldGenSize)) := by
  refine ⟨_, updates_of_filled hc (h.filled hc), ?_⟩
  have hvalid := h.validSize
  have hsize := hc.oldGenSize
  cases new with
  | nil =>
    rw [List.append_nil] at hc hsize ⊢
    rw [if_pos rfl, hc.allRight_withMap_iff]
    have heq : s.crossMapValidSize = s.heap.oldGenSize := by omega
    have hentries := h.entries
    by_cases hdone : done = []
    · simp only [hdone, if_true] at hc hentries ⊢
      simp only [ne_eq, not_true_eq_false, false_and, iff_false]
      exact fun hr => hc.not_right_empty (hentries 0 ▸ hr 0 (Nat.zero_le _))
    · simp only [if_neg hdone] at hentries
      exact ⟨fun _ => ⟨hdone, .inl heq⟩, fun _ i _ => hentries i⟩
  | cons z new =>
    have hne : done ++ z :: new ≠ [] := by simp
    have hneq : s.crossMapValidSize ≠ s.heap.oldGenSize := by
      have hpos := hc.objects.sum_pos hne
      have hpos' := (objects_append.mp hc.objects).2.sum_pos (by simp)
      have hle := hc.alignFrontier.1
      rw [if_neg hne, List.sum_append] at hsize
      split at hvalid <;> omega
    rw [if_neg (by simp), hc.allRight_withMap_iff, hc.right_updatedMap_iff hne]
    exact ⟨fun hd => ⟨hne, .inr hd⟩, fun hd => hd.2.resolve_left hneq⟩

/-- **In a run, an update leaves the map of one call at the end.** -/
theorem Reached.updates (h : Reached s sizes) : ∃ s' s'', s.Updates s' ∧ s.cleared.Updates s'' ∧
    s'.crossMap = s''.crossMap ∧
    (s'.AllRight sizes ↔ sizes ≠ [] ∧ ¬ cardSize ∣ s.heap.oldGenSize) := by
  obtain ⟨hc, done, new, rfl, hmap, hvalid⟩ := h.left
  have hupdates := updates_of_filled hc (filled_leftMap hmap hvalid)
  have hcleared : Reached s.cleared (done ++ new) := .clear hc.cleared rfl fun _ => rfl
  obtain ⟨hcc, done', new', heq, hmap', hvalid'⟩ := hcleared.left
  have hupdates' := updates_of_filled (heq ▸ hcc) (filled_leftMap hmap' hvalid')
  have hleft := h.map_eq hupdates
  refine ⟨_, _, hupdates, hupdates', hleft.trans (hcleared.map_eq hupdates').symm, ?_⟩
  rw [hc.allRight_withMap_iff]
  rw [withMap] at hleft
  simp only at hleft
  rw [hleft, leftMap]
  split
  case isTrue hnil =>
    rw [hnil] at hc ⊢
    exact ⟨fun hr => absurd (hr 0 (Nat.zero_le _)) hc.not_right_empty, fun hr => absurd rfl hr.1⟩
  case isFalse hne =>
    rw [hc.right_updatedMap_iff hne]
    exact ⟨fun hd => ⟨hne, hd⟩, And.right⟩

/-- **The cross map.**  One call makes a map that was right up to `crossMapValidSize` right, as `isCrossMapOk`
computes it, if and only if the old generation has an object and either none has come to it or it does not end
on a card boundary; every distance fits; and calls while the old generation grows leave the map of one call at
the end. -/
theorem updateCrossMap_right_iff (s : Generational) :
    (∀ done new : List ℕ, s.Consists (done ++ new) → s.RightUpTo done →
      (∀ p ∈ s.oldGenBoundaries (done ++ new),
        (p - s.getCrossMapCardStart p) / crossMapOffsetScale < crossMapEmpty) ∧
      ∃ s', s.Updates s' ∧ (s'.AllRight (done ++ new) ↔ done ++ new ≠ [] ∧
        (s.crossMapValidSize = s.heap.oldGenSize ∨ ¬ cardSize ∣ s.heap.oldGenSize))) ∧
    ∀ sizes : List ℕ, Reached s sizes → ∃ s' s'', s.Updates s' ∧ s.cleared.Updates s'' ∧
      s'.crossMap = s''.crossMap ∧ (s'.AllRight sizes ↔ sizes ≠ [] ∧ ¬ cardSize ∣ s.heap.oldGenSize) :=
  ⟨fun _ _ hc h => ⟨hc.distance_lt, allRight_of_rightUpTo hc h⟩, fun _ h => h.updates⟩

/-- An old generation of one object that fills a card, and a map that has been cleared. -/
def fullCard (size : ℕ) : Generational where
  alignment := 8
  crossMap _ := crossMapEmpty
  crossMapValidSize := 0
  heap := ⟨0, size, 4096, 4096⟩
  normalMetadataSize := 8
  sizeofObject _ := size

theorem consists_fullCard (size : ℕ) (hpos : 0 < size) (hdvd : crossMapOffsetScale ∣ size) :
    (fullCard size).Consists [size] where
  start_aligned := ⟨16, rfl⟩
  alignment_pos := Nat.zero_lt_succ 7
  alignment_le := show 8 ≤ 256 by decide
  alignment_scale := ⟨2, rfl⟩
  metadata_scale := ⟨2, rfl⟩
  objects := ⟨rfl, hpos, hdvd, trivial⟩
  oldGenSize := by simp [fullCard, alignFrontier, align]

theorem rightUpTo_fullCard (size : ℕ) : (fullCard size).RightUpTo [] := ⟨rfl, fun _ => rfl⟩

theorem updateCrossMap_right_iff_short : ∃ s', (fullCard 248).Updates s' ∧ s'.AllRight [248] :=
  have ⟨s', hs', hiff⟩ := ((updateCrossMap_right_iff (fullCard 248)).1 [] [248]
    (consists_fullCard 248 (by decide) (by decide)) (rightUpTo_fullCard 248)).2
  ⟨s', hs', hiff.mpr ⟨by decide, .inr (by decide)⟩⟩

/-- **An object that ends with its card**: the call does not make the map right. -/
theorem updateCrossMap_wraps : (fullCard 256).Consists [256] ∧ (fullCard 256).RightUpTo [] ∧
    ∃ s', (fullCard 256).Updates s' ∧ ¬ s'.AllRight [256] := by
  have hc := consists_fullCard 256 (by decide) (by decide)
  obtain ⟨s', hs', hiff⟩ := @allRight_of_rightUpTo (fullCard 256) [] [256] hc (rightUpTo_fullCard 256)
  exact ⟨hc, rightUpTo_fullCard 256, s', hs', fun h => absurd (hiff.mp h).2 (by decide)⟩

/-- The entry becomes zero, and is to be 64. -/
example : ((fullCard 256).updateCrossMap 1).map (fun s => s.crossMap 0) = some 0 := rfl

end MLton.Runtime.Generational
