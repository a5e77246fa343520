import MLton.Basis.SliceRead

/-!
# Basis/SliceCorrect — slices are lists

Each function on well-formed slices is one on the lists of their elements, returns only well-formed slices, and raises
exactly if its arguments are out of range; none reads or writes outside a sequence, since that is an outcome of its own.
Two functions know how long a sequence can be: `append` raises `Size`, and the bound of `position`'s index wraps if an empty
pattern is looked for up to the largest index.
-/

namespace MLton.Slice

variable {w : ℕ} {L : Limit w} {α β Loc : Type*}

/-! ## The slice of natural numbers -/

section Of

variable {h : Heap L Loc α} {seq : Loc} {s l : ℕ}

/-- The index behind the last element, and the last. -/
theorem start_add_len (seq : Loc) (s l : ℕ) :
    (T.of (w := w) seq s l).start + (T.of (w := w) seq s l).len = BitVec.ofInt w (s + l : ℕ) := by
  rw [T.of, ← BitVec.ofInt_add]
  rfl

theorem start_add_pred (seq : Loc) (s l : ℕ) :
    (T.of (w := w) seq s l).start + ((T.of (w := w) seq s l).len - 1) = BitVec.ofInt w ((s + l : ℕ) - 1) := by
  rw [T.of, ofInt_pred, ← BitVec.ofInt_add]
  exact congrArg _ (by push_cast; omega)

theorem foldli_of (hle : s + l ≤ (h seq).elems.length) (f : BitVec w → α → β → β) (b : β) :
    foldli h f b (T.of seq s l) =
      .ok ((elements h (T.of seq s l)).zipIdx.foldl (fun b p => f (BitVec.ofInt w p.2) p.1 b) b) := by
  have hreads : Reads (h seq) (s + 0) (elements h (T.of (w := w) seq s l)) := reads_elements hle
  have hloop := foldliLoop_eq f (b := b) hreads
  rw [length_elements_of hle] at hloop
  rw [foldli]
  rw [start_add_pred]
  exact hloop

theorem foldri_of (hle : s + l ≤ (h seq).elems.length) (f : BitVec w → α → β → β) (b : β) :
    foldri h f b (T.of seq s l) =
      .ok ((elements h (T.of seq s l)).zipIdx.foldr (fun p b => f (BitVec.ofInt w p.2) p.1 b) b) := by
  have hloop := foldriLoop_eq f (b := b) (reads_elements (w := w) hle)
  rw [length_elements_of hle] at hloop
  rw [foldri]
  rw [start_add_pred]
  exact hloop

theorem findi_of (hle : s + l ≤ (h seq).elems.length) (p : BitVec w × α → Bool) :
    findi h p (T.of seq s l) =
      .ok (((elements h (T.of seq s l)).zipIdx.map fun z => (BitVec.ofInt w z.2, z.1)).find? p) := by
  have hreads : Reads (h seq) (s + 0) (elements h (T.of (w := w) seq s l)) := reads_elements hle
  have hloop := findiLoop_eq p hreads
  rw [length_elements_of hle] at hloop
  rw [findi]
  rw [start_add_pred]
  exact hloop

theorem collate_of {seq' : Loc} {s' l' : ℕ} (hle : s + l ≤ (h seq).elems.length)
    (hle' : s' + l' ≤ (h seq').elems.length) (cmp : α → α → Ordering) :
    collate h cmp (T.of seq s l) (T.of seq' s' l') =
      .ok (collateList cmp (elements h (T.of seq s l)) (elements h (T.of seq' s' l'))) := by
  have hloop := collateLoop_eq cmp (reads_elements (w := w) hle) (reads_elements (w := w) hle')
  rw [length_elements_of hle, length_elements_of hle'] at hloop
  rw [collate]
  rw [start_add_len, start_add_len]
  exact hloop

/-- **A split** of a slice, at the place of an element or behind the last one. -/
theorem split_of {k : ℕ} (hk : k ≤ l) :
    split h (T.of seq s l) (BitVec.ofInt w (s + k : ℕ)) = (T.of seq s k, T.of seq (s + k) (l - k)) := by
  have hlen : BitVec.ofInt w (l : ℤ) - BitVec.ofInt w (k : ℤ) = BitVec.ofInt w ((l - k : ℕ) : ℤ) := by
    rw [← ofInt_sub, Nat.cast_sub hk]
  simp only [split, unsafeSlice, unsafeSubslice, full, T.of, zero_add, ofInt_offset, hlen]

/-- The parts of a split slice. -/
theorem isSlice_take {k : ℕ} (hle : s + l ≤ (h seq).elems.length) (hk : k ≤ l) :
    IsSlice h seq ((elements h (T.of (w := w) seq s l)).take k) (T.of seq s k) := by
  have hslice : IsSlice h seq _ (T.of (w := w) seq s k) := isSlice_of (by omega)
  rw [elements_of hle, List.take_take, min_eq_left hk]
  exact hslice

theorem isSlice_drop {k : ℕ} (hle : s + l ≤ (h seq).elems.length) (hk : k ≤ l) :
    IsSlice h seq ((elements h (T.of (w := w) seq s l)).drop k) (T.of seq (s + k) (l - k)) := by
  have hslice : IsSlice h seq _ (T.of (w := w) seq (s + k) (l - k)) := isSlice_of (by omega)
  rw [elements_of hle, List.drop_take, List.drop_drop]
  exact hslice

end Of

/-! ## Outcomes -/

/-- What is returned for arguments in range, and the exception otherwise. -/
def Returns {γ : Type*} (r : Except Exn γ) (e : Exn) (InRange : Prop) (P : γ → Prop) : Prop :=
  (InRange → ∃ x, r = .ok x ∧ P x) ∧ (¬ InRange → r = .error e)

/-- The two parts of a split of a slice. -/
def Splits (h : Heap L Loc α) (seq : Loc) (xs : List α) (k : ℕ) (sls : T Loc w × T Loc w) : Prop :=
  IsSlice h seq (xs.take k) sls.1 ∧ IsSlice h seq (xs.drop k) sls.2

theorem splits_of {h : Heap L Loc α} {seq : Loc} {s l k : ℕ} (hle : s + l ≤ (h seq).elems.length) (hk : k ≤ l) :
    Splits h seq (elements h (T.of seq s l)) k (split h (T.of seq s l) (BitVec.ofInt w (s + k : ℕ))) := by
  rw [split_of hk]
  exact ⟨isSlice_take hle hk, isSlice_drop hle hk⟩

/-- An index is in range, without its sign. -/
theorem nonneg_le_iff (L : Limit w) {i : BitVec w} {n : ℕ} (hn : n < 2 ^ (w - 1)) :
    0 ≤ i.toInt ∧ i.toInt ≤ n ↔ i.toNat ≤ n := by
  constructor
  · rintro ⟨hnonneg, hle⟩
    have := (toInt_eq_toNat hnonneg).2
    omega
  · intro hle
    have hpow : 2 ^ w = 2 * 2 ^ (w - 1) := by exact_mod_cast two_pow_width L
    rw [BitVec.toInt_eq_toNat_of_lt (by omega)]
    omega

/-- An index is that of its number. -/
theorem eq_ofInt (i : BitVec w) : i = BitVec.ofInt w i.toNat := by
  rw [BitVec.ofInt_natCast, BitVec.ofNat_toNat, BitVec.setWidth_eq]

/-- The arguments of `subslice` are in range. -/
def SubRange (sl : T Loc w) (start' : BitVec w) : Option (BitVec w) → Prop
  | none => 0 ≤ start'.toInt ∧ start'.toInt ≤ sl.len.toInt
  | some len' => 0 ≤ start'.toInt ∧ 0 ≤ len'.toInt ∧ start'.toInt + len'.toInt ≤ sl.len.toInt

/-- `subslice` of lists. -/
def subList (xs : List α) (start' : BitVec w) : Option (BitVec w) → List α
  | none => xs.drop start'.toNat
  | some len' => (xs.drop start'.toNat).take len'.toNat

/-! ## The functions, one by one -/

section Functions

variable {h : Heap L Loc α} {sl sl' : T Loc w}

theorem subslice_spec (hsl : WellFormed h sl) (start' : BitVec w) (len' : Option (BitVec w)) :
    Returns (subslice sl start' len') .subscript (SubRange sl start' len')
      (IsSlice h sl.seq (subList (elements h sl) start' len')) := by
  obtain ⟨s, l, hof, hle⟩ := hsl.exists_of
  have hlt := length_lt (h sl.seq)
  generalize sl.seq = seq at hof hle hlt
  subst hof
  have hlen : (T.of (w := w) seq s l).len.toNat = l := toNat_ofInt L (by omega)
  have hint : (T.of (w := w) seq s l).len.toInt = l := toInt_natCast L (by omega)
  have hstart := eq_ofInt start'
  have hslice : ∀ {k m : ℕ}, start'.toNat = k → k + m ≤ l →
      IsSlice h seq (((elements h (T.of (w := w) seq s l)).drop k).take m)
        ⟨seq, (T.of (w := w) seq s l).start + start', BitVec.ofInt w m⟩ := by
    rintro k m rfl hm
    have hof : IsSlice h seq _ (T.of (w := w) seq (s + start'.toNat) m) := isSlice_of (by omega)
    rw [elements_of hle, List.drop_take, List.drop_drop, List.take_take, min_eq_left (by omega)]
    rwa [T.of, Nat.cast_add, BitVec.ofInt_add, ← hstart] at hof
  have hrest : start'.toNat ≤ l →
      (T.of (w := w) seq s l).len - start' = BitVec.ofInt w ((l - start'.toNat : ℕ) : ℤ) := by
    intro hle
    rw [Nat.cast_sub hle, ofInt_sub, ← hstart]
    rfl
  cases len' with
  | none =>
    have hrange : SubRange (T.of (w := w) seq s l) start' none ↔ gtu start' (T.of (w := w) seq s l).len = false := by
      rw [SubRange, hint, nonneg_le_iff L (by omega), gtu, hlen, decide_eq_false_iff_not, not_lt]
    rw [hrange, subslice]
    refine ⟨fun hin => ?_, fun hout => ?_⟩
    · have hk : start'.toNat ≤ l := by simpa [gtu, hlen] using hin
      rw [hin]
      refine ⟨_, rfl, ?_⟩
      have hlength := length_elements_of (w := w) hle
      rw [hrest hk, subList, ← List.take_of_length_le (l := (elements h _).drop _) (i := l - start'.toNat)
        (by rw [List.length_drop, hlength])]
      exact hslice rfl (by omega)
    · rw [Bool.eq_false_iff, not_not] at hout
      rw [hout]
      rfl
  | some len' =>
    have hrange : SubRange (T.of (w := w) seq s l) start' (some len') ↔
        (gtu start' (T.of (w := w) seq s l).len || gtu len' ((T.of (w := w) seq s l).len - start')) = false := by
      rw [SubRange, hint, Bool.or_eq_false_iff, gtu, gtu, hlen, decide_eq_false_iff_not, decide_eq_false_iff_not, not_lt,
        not_lt]
      constructor
      · rintro ⟨hs', hl', hle'⟩
        have hs'' := (toInt_eq_toNat hs').2
        have hl'' := (toInt_eq_toNat hl').2
        have hk : start'.toNat ≤ l := by omega
        rw [hrest hk, toNat_ofInt L (by omega)]
        omega
      · rintro ⟨hk, hm⟩
        rw [hrest hk, toNat_ofInt L (by omega)] at hm
        have hs' := (nonneg_le_iff L (n := l) (by omega)).mpr hk
        have hl' := (nonneg_le_iff L (n := l) (i := len') (by omega)).mpr (by omega)
        have hs'' := (toInt_eq_toNat hs'.1).2
        have hl'' := (toInt_eq_toNat hl'.1).2
        omega
    rw [hrange, subslice]
    refine ⟨fun hin => ?_, fun hout => ?_⟩
    · rw [hin]
      refine ⟨_, rfl, ?_⟩
      rw [Bool.or_eq_false_iff, gtu, gtu, hlen, decide_eq_false_iff_not, decide_eq_false_iff_not, not_lt, not_lt] at hin
      rw [hrest hin.1, toNat_ofInt L (by omega)] at hin
      have hof := hslice (m := len'.toNat) rfl (by omega)
      rwa [← eq_ofInt] at hof
    · rw [Bool.not_eq_false] at hout
      rw [hout]
      rfl

theorem ofInt_eq_zero_iff (L : Limit w) {k : ℕ} (hk : k < 2 ^ (w - 1)) : BitVec.ofInt w (k : ℤ) = 0 ↔ k = 0 := by
  constructor
  · intro h0
    have := congrArg BitVec.toNat h0
    rw [toNat_ofInt L hk] at this
    simpa using this
  · rintro rfl
    simp

theorem getItem_spec (hsl : WellFormed h sl) : match elements h sl with
    | [] => getItem h sl = .ok none
    | x :: xs => ∃ sl', getItem h sl = .ok (some (x, sl')) ∧ IsSlice h sl.seq xs sl' := by
  obtain ⟨s, l, hof, hle⟩ := hsl.exists_of
  have hlt := length_lt (h sl.seq)
  generalize sl.seq = seq at hof hle hlt
  subst hof
  have hlength := length_elements_of (w := w) hle
  have hreads := reads_elements (w := w) hle
  have hdrop := isSlice_drop (w := w) (k := 1) hle
  have hzero : (T.of (w := w) seq s l).len = 0 ↔ l = 0 := ofInt_eq_zero_iff L (by omega)
  rw [getItem]
  cases hxs : elements h (T.of (w := w) seq s l) with
  | nil =>
    rw [hxs] at hlength
    rw [if_pos (hzero.mpr hlength.symm)]
  | cons x xs =>
    rw [hxs] at hlength hreads hdrop
    rw [List.length_cons] at hlength
    have hread : ((h seq).subUnsafe (T.of (w := w) seq s l).start) = .ok x := hreads.head
    have hpred : BitVec.ofInt w (l : ℤ) - 1 = BitVec.ofInt w ((l - 1 : ℕ) : ℤ) := by
      rw [ofInt_pred, Nat.cast_pred (by omega)]
    rw [if_neg (by rw [hzero]; omega)]
    refine ⟨T.of seq (s + 1) (l - 1), ?_, hdrop (by omega)⟩
    rw [T.of] at hread ⊢
    rw [hread]
    simp only [Except.map, T.of, hpred, ofInt_succ]

/-- An array is allocated unless it is too long. -/
theorem arrayAlloc_ok (junk : ℕ → α) {n : ℕ} (hn : n ≤ L.maxLen.toNat) :
    ∃ a : Contents L α, arrayAlloc junk (BitVec.ofInt w n) = .ok a ∧ a.elems.length = n := by
  have hnat : (BitVec.ofInt w (n : ℤ)).toNat = n := toNat_ofInt L (hn.trans_lt L.le_maxInt)
  refine ⟨_, dif_neg (by rw [gtu, hnat]; simpa using hn), ?_⟩
  simp only [hnat, List.length_map, List.length_range]

theorem arrayAlloc_size (junk : ℕ → α) {n : ℕ} (hn : L.maxLen.toNat < n) (hlt : n < 2 * 2 ^ (w - 1)) :
    arrayAlloc (L := L) junk (BitVec.ofInt w n) = .error .size := by
  have hpow : 2 ^ w = 2 * 2 ^ (w - 1) := by exact_mod_cast two_pow_width L
  refine dif_pos ?_
  rw [gtu, BitVec.ofInt_natCast, BitVec.toNat_ofNat, Nat.mod_eq_of_lt (by omega), decide_eq_true_iff]
  exact hn

/-- **`sequence`** has the elements of the slice. -/
theorem sequence_of {seq : Loc} {s l : ℕ} (hle : s + l ≤ (h seq).elems.length) (isMutable : Bool) (junk : ℕ → α) :
    ∃ c, sequence h isMutable junk (T.of (w := w) seq s l) = .ok c ∧ c.elems = elements h (T.of (w := w) seq s l) := by
  have hlt := length_lt (h seq)
  rw [sequence]
  split
  · obtain ⟨a, ha, hlength⟩ := arrayAlloc_ok (L := L) junk (hle.trans (h seq).length_le |>.trans' (Nat.le_add_left l s))
    have hcopy := @copyUnsafe_of w L α a (h seq) 0 s l (by omega) hle
    obtain ⟨c, hc, helems⟩ := hcopy
    have hlen : (T.of (w := w) seq s l).len = BitVec.ofInt w l := rfl
    rw [hlen, ha]
    rw [Nat.cast_zero, ofInt_zero] at hc
    have htail : a.elems.drop (0 + l) = [] := List.drop_eq_nil_of_le (by omega)
    refine ⟨c, hc, ?_⟩
    rw [helems, elements_of hle, htail]
    simp
  · next hfull =>
    simp only [Bool.or_eq_true, not_or, decide_eq_true_eq, not_not] at hfull
    obtain ⟨-, hs, hl⟩ := hfull
    have hs0 : s = 0 := (ofInt_eq_zero_iff L (by omega)).mp hs
    have hl0 : l = (h seq).elems.length := by
      have := congrArg BitVec.toNat hl
      rw [Contents.length_eq, T.of, toNat_ofInt L (by omega), toNat_ofInt L (by omega)] at this
      exact this
    refine ⟨h seq, rfl, ?_⟩
    rw [elements_of hle, hs0, hl0]
    simp

theorem append_spec (hsl : WellFormed h sl) (hsl' : WellFormed h sl') (isMutable : Bool) (junk : ℕ → α) :
    Returns (append h isMutable junk sl sl') .size (sl.len.toInt + sl'.len.toInt ≤ L.maxLen.toInt)
      (fun c => c.elems = elements h sl ++ elements h sl') := by
  obtain ⟨s, l, hof, hle⟩ := hsl.exists_of
  obtain ⟨s', l', hof', hle'⟩ := hsl'.exists_of
  have hlt := length_lt (h sl.seq)
  have hlt' := length_lt (h sl'.seq)
  have hmax := (h sl.seq).length_le
  have hmax' := (h sl'.seq).length_le
  generalize sl.seq = seq at hof hle hlt hmax
  generalize sl'.seq = seq' at hof' hle' hlt' hmax'
  subst hof hof'
  have hl := length_elements_of (w := w) hle
  have hl' := length_elements_of (w := w) hle'
  have hint : (T.of (w := w) seq s l).len.toInt = l := toInt_natCast L (by omega)
  have hint' : (T.of (w := w) seq' s' l').len.toInt = l' := toInt_natCast L (by omega)
  have hmaxint : L.maxLen.toInt = L.maxLen.toNat := by
    rw [eq_ofInt L.maxLen, toInt_natCast L L.le_maxInt, toNat_ofInt L L.le_maxInt]
  have hzero : (T.of (w := w) seq s l).len = 0 ↔ l = 0 := ofInt_eq_zero_iff L (by omega)
  have hzero' : (T.of (w := w) seq' s' l').len = 0 ↔ l' = 0 := ofInt_eq_zero_iff L (by omega)
  have hrange : (l : ℤ) + l' ≤ L.maxLen.toNat ↔ l + l' ≤ L.maxLen.toNat := by omega
  rw [hint, hint', hmaxint, hrange, append]
  split_ifs with h0 h0'
  · -- nothing in front
    obtain ⟨c, hc, helems⟩ := sequence_of hle' isMutable junk
    have hnil := List.length_eq_zero_iff.mp (hl.trans (hzero.mp h0))
    exact ⟨fun _ => ⟨c, hc, helems.trans (by rw [hnil, List.nil_append])⟩, fun hout => absurd (hzero.mp h0) (by omega)⟩
  · -- nothing behind
    obtain ⟨c, hc, helems⟩ := sequence_of hle isMutable junk
    have hnil := List.length_eq_zero_iff.mp (hl'.trans (hzero'.mp h0'))
    exact ⟨fun _ => ⟨c, hc, helems.trans (by rw [hnil, List.append_nil])⟩, fun hout => absurd (hzero'.mp h0') (by omega)⟩
  · have hn : (T.of (w := w) seq s l).len + (T.of (w := w) seq' s' l').len = BitVec.ofInt w (l + l' : ℕ) := by
      rw [Nat.cast_add, BitVec.ofInt_add]
      rfl
    simp only [hn]
    refine ⟨fun hin => ?_, fun hout => ?_⟩
    · obtain ⟨a, ha, hlength⟩ := arrayAlloc_ok (L := L) junk hin
      obtain ⟨a₁, ha₁, helems₁⟩ := @copyUnsafe_of w L α a (h seq) 0 s l (by omega) hle
      have hlength₁ : a₁.elems.length = l + l' := by
        rw [helems₁, Contents.length_blockCopy (by omega) hle, hlength]
      obtain ⟨a₂, ha₂, helems₂⟩ := @copyUnsafe_of w L α a₁ (h seq') l s' l' (by omega) hle'
      rw [Nat.cast_zero, ofInt_zero] at ha₁
      refine ⟨a₂, ?_, ?_⟩
      · rw [ha]
        simp only [Except.bind]
        have hfirst : a.copyUnsafe 0 (h (T.of (w := w) seq s l).seq) (T.of (w := w) seq s l).start
            (T.of (w := w) seq s l).len = .ok a₁ := ha₁
        rw [hfirst]
        exact ha₂
      · show a₂.elems = _
        have htail : a₁.elems.drop (l + l') = [] := List.drop_eq_nil_of_le (by omega)
        rw [helems₂, htail, List.append_nil, ← elements_of hle', helems₁, ← elements_of hle, List.take_zero,
          List.nil_append, List.take_left' hl]
    · rw [arrayAlloc_size junk (by omega) (by omega)]
      rfl

theorem splitl_spec (hsl : WellFormed h sl) (f : α → Bool) : ∃ sls, splitl h f sl = .ok sls ∧
    IsSlice h sl.seq ((elements h sl).takeWhile f) sls.1 ∧ IsSlice h sl.seq ((elements h sl).dropWhile f) sls.2 := by
  obtain ⟨s, l, hof, hle⟩ := hsl.exists_of
  generalize sl.seq = seq at hof hle
  subst hof
  have hloop := splitlLoop_eq f (reads_elements (w := w) hle)
  have hlength := length_elements_of (w := w) hle
  have hk : ((elements h (T.of (w := w) seq s l)).takeWhile f).length ≤ l :=
    (List.takeWhile_prefix f).length_le.trans_eq hlength
  rw [hlength] at hloop
  refine ⟨_, by rw [splitl, start_add_len]; exact congrArg (Except.map _) hloop, ?_⟩
  have hsplits := splits_of (w := w) hle hk
  rw [Splits] at hsplits
  generalize elements h (T.of (w := w) seq s l) = xs at hsplits ⊢
  have htake : xs.take (xs.takeWhile f).length = xs.takeWhile f :=
    (List.prefix_iff_eq_take.mp (List.takeWhile_prefix f)).symm
  have hdrop : xs.drop (xs.takeWhile f).length = xs.dropWhile f := by
    have := congrArg (List.drop (xs.takeWhile f).length) (List.takeWhile_append_dropWhile (p := f) (l := xs))
    rw [List.drop_left] at this
    exact this.symm
  rwa [htake, hdrop] at hsplits

theorem splitr_spec (hsl : WellFormed h sl) (f : α → Bool) : ∃ sls, splitr h f sl = .ok sls ∧
    IsSlice h sl.seq ((elements h sl).rdropWhile f) sls.1 ∧ IsSlice h sl.seq ((elements h sl).rtakeWhile f) sls.2 := by
  obtain ⟨s, l, hof, hle⟩ := hsl.exists_of
  generalize sl.seq = seq at hof hle
  subst hof
  have hloop := splitrLoop_eq f (reads_elements (w := w) hle)
  have hlength := length_elements_of (w := w) hle
  have hk : ((elements h (T.of (w := w) seq s l)).rdropWhile f).length ≤ l :=
    (List.rdropWhile_prefix f _).length_le.trans_eq hlength
  rw [hlength] at hloop
  refine ⟨_, by rw [splitr, start_add_len, ofInt_pred]; exact congrArg (Except.map _) hloop, ?_⟩
  have hsplits := splits_of (w := w) hle hk
  rw [Splits] at hsplits
  generalize elements h (T.of (w := w) seq s l) = xs at hsplits ⊢
  have hwhole : xs.rdropWhile f ++ xs.rtakeWhile f = xs := by
    rw [List.rdropWhile, List.rtakeWhile, ← List.reverse_append, List.takeWhile_append_dropWhile, List.reverse_reverse]
  have htake : xs.take (xs.rdropWhile f).length = xs.rdropWhile f :=
    (List.prefix_iff_eq_take.mp (List.rdropWhile_prefix f xs)).symm
  have hdrop : xs.drop (xs.rdropWhile f).length = xs.rtakeWhile f := by
    have := congrArg (List.drop (xs.rdropWhile f).length) hwhole
    rw [List.drop_left] at this
    exact this.symm
  rwa [htake, hdrop] at hsplits

theorem splitAt_spec (hsl : WellFormed h sl) (i : BitVec w) :
    Returns (splitAt h sl i) .subscript (0 ≤ i.toInt ∧ i.toInt ≤ sl.len.toInt)
      (Splits h sl.seq (elements h sl) i.toNat) := by
  obtain ⟨s, l, hof, hle⟩ := hsl.exists_of
  have hlt := length_lt (h sl.seq)
  generalize sl.seq = seq at hof hle hlt
  subst hof
  have hlen : (T.of (w := w) seq s l).len.toNat = l := toNat_ofInt L (by omega)
  have hint : (T.of (w := w) seq s l).len.toInt = l := toInt_natCast L (by omega)
  have hrange : gtu i (T.of (w := w) seq s l).len = false ↔ i.toNat ≤ l := by
    rw [gtu, hlen, decide_eq_false_iff_not, not_lt]
  rw [hint, nonneg_le_iff L (by omega), ← hrange, splitAt]
  refine ⟨fun hin => ?_, fun hout => ?_⟩
  · rw [hin]
    refine ⟨_, rfl, ?_⟩
    have hk := hrange.mp hin
    have hi := eq_ofInt i
    have hsum : BitVec.ofInt w (s : ℤ) + i = BitVec.ofInt w (s + i.toNat : ℕ) := by
      rw [Nat.cast_add, BitVec.ofInt_add, ← hi]
    have hrest : BitVec.ofInt w (l : ℤ) - i = BitVec.ofInt w ((l - i.toNat : ℕ) : ℤ) := by
      rw [Nat.cast_sub hk, ofInt_sub, ← hi]
    have hfront : unsafeSlice h seq (T.of (w := w) seq s l).start (some i) = T.of seq s i.toNat := by
      simp only [unsafeSlice, unsafeSubslice, full, T.of, zero_add, ← hi]
    have hback : unsafeSlice h seq ((T.of (w := w) seq s l).start + i) (some ((T.of (w := w) seq s l).len - i)) =
        T.of seq (s + i.toNat) (l - i.toNat) := by
      simp only [unsafeSlice, unsafeSubslice, full, T.of, zero_add, hsum, hrest]
    have hseq : (T.of (w := w) seq s l).seq = seq := rfl
    rw [hseq, hfront, hback]
    exact ⟨isSlice_take hle hk, isSlice_drop hle hk⟩
  · rw [Bool.not_eq_false] at hout
    rw [hout]
    rfl

/-- **The bound of `position`'s index wraps** if it is the number after the largest index. -/
theorem toInt_wrapped (L : Limit w) : (BitVec.ofInt w (2 ^ (w - 1))).toInt = -2 ^ (w - 1) := by
  have hpow := two_pow_width L
  have hcast : ((2 ^ w : ℕ) : ℤ) = 2 * 2 ^ (w - 1) := by
    push_cast
    exact hpow
  have hpos : (0 : ℤ) < 2 ^ (w - 1) := by positivity
  rw [BitVec.toInt_ofInt, Int.bmod_def, hcast, Int.emod_eq_of_lt (by omega) (by omega), if_neg (by omega)]
  omega

/-- What `position` splits at, where its loop stops at the place of an element or behind the last one. -/
theorem position_of {seq seq' : Loc} {s l k : ℕ} (hle : s + l ≤ (h seq).elems.length) (hk : k ≤ l) (eq : α → α → Bool)
    (hloop : positionLoop eq (h seq) (h seq') (BitVec.ofInt w (h seq').elems.length)
      (BitVec.ofInt w ((s + l : ℕ) - (h seq').elems.length + 1)) (BitVec.ofInt w (s + l : ℕ)) (BitVec.ofInt w s) =
        .ok (BitVec.ofInt w (s + k : ℕ))) :
    ∃ sls, position h eq seq' (T.of seq s l) = .ok sls ∧ Splits h seq (elements h (T.of seq s l)) k sls := by
  refine ⟨split h (T.of seq s l) (BitVec.ofInt w (s + k : ℕ)), ?_, splits_of hle hk⟩
  rw [position]
  rw [start_add_len, Contents.length_eq, ← ofInt_sub, ← ofInt_one, ← BitVec.ofInt_add]
  exact congrArg (Except.map _) hloop

theorem position_spec (hsl : WellFormed h sl) (seq' : Loc)
    (hfits : (h seq').elems ≠ [] ∨ sl.len = 0 ∨ sl.start.toInt + sl.len.toInt + 1 < 2 ^ (w - 1)) (eq : α → α → Bool) :
    ∃ sls, position h eq seq' sl = .ok sls ∧
      Splits h sl.seq (elements h sl) (occurrence eq (h seq').elems (elements h sl)) sls := by
  obtain ⟨s, l, hof, hle⟩ := hsl.exists_of
  have hlt := length_lt (h sl.seq)
  generalize sl.seq = seq at hof hle hlt
  subst hof
  have hlength := length_elements_of (w := w) hle
  have hpat : Reads (h seq') 0 (h seq').elems := ⟨List.prefix_rfl, Nat.zero_le _⟩
  have hk := occurrence_le eq (h seq').elems (elements h (T.of (w := w) seq s l))
  rw [hlength] at hk
  refine position_of hle hk eq ?_
  by_cases hbound : s + l + 1 < 2 ^ (w - 1) + (h seq').elems.length
  · have hloop := positionLoop_eq eq hpat (reads_elements (w := w) hle) (by rwa [hlength])
    rwa [hlength] at hloop
  · -- only an empty slice ends at the largest index, if the pattern is empty
    have hnil : (h seq').elems.length = 0 := by omega
    have hint : (T.of (w := w) seq s l).len.toInt = l := toInt_natCast L (by omega)
    have hstart : (T.of (w := w) seq s l).start.toInt = s := toInt_natCast L (by omega)
    have hzero : l = 0 := by
      obtain hne | h0 | hend := hfits
      · exact absurd (List.length_eq_zero_iff.mp hnil) hne
      · exact (ofInt_eq_zero_iff L (by omega)).mp h0
      · rw [hstart, hint] at hend
        have : s + l + 1 < 2 ^ (w - 1) := by exact_mod_cast hend
        omega
    have hocc : occurrence eq (h seq').elems (elements h (T.of (w := w) seq s l)) = 0 := by omega
    have hpow : ((s + l : ℕ) : ℤ) - (h seq').elems.length + 1 = 2 ^ (w - 1) := by
      have : s + l + 1 = 2 ^ (w - 1) := by omega
      rw [hnil, ← Nat.cast_two, ← Nat.cast_pow, ← this]
      push_cast
      omega
    have hpos : (0 : ℤ) < 2 ^ (w - 1) := by positivity
    rw [positionLoop, hpow, dif_pos, hocc, hzero]
    rw [toInt_wrapped L, toInt_natCast L (by omega)]
    omega

theorem span_spec {eq : Loc → Loc → Bool} (heq : ∀ a b, eq a b = true → (h a).elems = (h b).elems)
    (hsl : WellFormed h sl) (hsl' : WellFormed h sl') : Returns (span h eq sl sl') .span
      (eq sl.seq sl'.seq = true ∧ sl.start.toInt ≤ sl'.start.toInt + sl'.len.toInt)
      (IsSlice h sl.seq
        (((h sl.seq).elems.drop sl.start.toNat).take (sl'.start.toNat + sl'.len.toNat - sl.start.toNat))) := by
  obtain ⟨s, l, hof, hle⟩ := hsl.exists_of
  obtain ⟨s', l', hof', hle'⟩ := hsl'.exists_of
  have hlt := length_lt (h sl.seq)
  have hlt' := length_lt (h sl'.seq)
  have hsame := heq sl.seq sl'.seq
  generalize sl.seq = seq at hof hle hlt hsame ⊢
  generalize sl'.seq = seq' at hof' hle' hlt' hsame ⊢
  subst hof hof'
  have hs : (BitVec.ofInt w (s : ℤ)).toNat = s := toNat_ofInt L (by omega)
  have hs' : (BitVec.ofInt w (s' : ℤ)).toNat = s' := toNat_ofInt L (by omega)
  have hl' : (BitVec.ofInt w (l' : ℤ)).toNat = l' := toNat_ofInt L (by omega)
  have hsi : (BitVec.ofInt w (s : ℤ)).toInt = s := toInt_natCast L (by omega)
  have hsi' : (BitVec.ofInt w (s' : ℤ)).toInt = s' := toInt_natCast L (by omega)
  have hli' : (BitVec.ofInt w (l' : ℤ)).toInt = l' := toInt_natCast L (by omega)
  have hend : (BitVec.ofInt w (s' + l' : ℕ)).toInt = (s' + l' : ℕ) := toInt_natCast L (by omega)
  rw [span, start_add_len]
  simp only [T.of, hs, hs', hl', hsi, hsi', hli', hend]
  refine ⟨?_, fun hout => if_pos ?_⟩
  · rintro ⟨htrue, hin⟩
    have hlength := congrArg List.length (hsame htrue)
    refine ⟨T.of seq s (s' + l' - s), ?_, isSlice_of (by omega)⟩
    have hlen : BitVec.ofInt w (s' + l' : ℕ) - BitVec.ofInt w (s : ℤ) = BitVec.ofInt w ((s' + l' - s : ℕ) : ℤ) := by
      rw [← ofInt_sub, Nat.cast_sub (by omega)]
    rw [htrue, if_neg (by simp; omega), hlen]
    simp only [unsafeSlice, unsafeSubslice, full, zero_add, T.of]
  · simp only [Bool.or_eq_true, Bool.not_eq_true', decide_eq_true_eq]
    by_cases htrue : eq seq seq' = true
    · exact .inr (by push_cast; exact not_le.mp fun hin => hout ⟨htrue, hin⟩)
    · exact .inl (Bool.eq_false_iff.mpr htrue)

end Functions

/-! ## All of them -/

/-- **Slices are lists**: what each function on slices returns is what the function on the lists of their elements does, as a
well-formed slice where it is a slice, and it raises exactly if its arguments are out of range. -/
structure RefinesLists (h : Heap L Loc α) (β : Type*) [DecidableEq Loc] : Prop where
  subslice : ∀ sl, WellFormed h sl → ∀ start' len', Returns (subslice sl start' len') .subscript (SubRange sl start' len')
    (IsSlice h sl.seq (subList (elements h sl) start' len'))
  getItem : ∀ sl, WellFormed h sl → match elements h sl with
    | [] => getItem h sl = .ok none
    | x :: xs => ∃ sl', getItem h sl = .ok (some (x, sl')) ∧ IsSlice h sl.seq xs sl'
  copy : ∀ sl, WellFormed h sl → ∀ sameArray dst, (sameArray = true ∨ dst ≠ sl.seq) → ∀ di,
    Returns (copy h sameArray dst di sl) .subscript
      (0 ≤ di.toInt ∧ di.toInt + sl.len.toInt ≤ (h dst).elems.length) (Copied h dst di.toNat (elements h sl))
  foldli : ∀ sl, WellFormed h sl → ∀ (f : BitVec w → α → β → β) b,
    foldli h f b sl = .ok ((elements h sl).zipIdx.foldl (fun b p => f (BitVec.ofInt w p.2) p.1 b) b)
  foldri : ∀ sl, WellFormed h sl → ∀ (f : BitVec w → α → β → β) b,
    foldri h f b sl = .ok ((elements h sl).zipIdx.foldr (fun p b => f (BitVec.ofInt w p.2) p.1 b) b)
  findi : ∀ sl, WellFormed h sl → ∀ p,
    findi h p sl = .ok (((elements h sl).zipIdx.map fun z => (BitVec.ofInt w z.2, z.1)).find? p)
  collate : ∀ sl, WellFormed h sl → ∀ sl', WellFormed h sl' → ∀ cmp,
    collate h cmp sl sl' = .ok (collateList cmp (elements h sl) (elements h sl'))
  append : ∀ sl, WellFormed h sl → ∀ sl', WellFormed h sl' → ∀ isMutable junk,
    Returns (append h isMutable junk sl sl') .size (sl.len.toInt + sl'.len.toInt ≤ L.maxLen.toInt)
      (fun c => c.elems = elements h sl ++ elements h sl')
  splitl : ∀ sl, WellFormed h sl → ∀ f, ∃ sls, splitl h f sl = .ok sls ∧
    IsSlice h sl.seq ((elements h sl).takeWhile f) sls.1 ∧ IsSlice h sl.seq ((elements h sl).dropWhile f) sls.2
  splitr : ∀ sl, WellFormed h sl → ∀ f, ∃ sls, splitr h f sl = .ok sls ∧
    IsSlice h sl.seq ((elements h sl).rdropWhile f) sls.1 ∧ IsSlice h sl.seq ((elements h sl).rtakeWhile f) sls.2
  splitAt : ∀ sl, WellFormed h sl → ∀ i, Returns (splitAt h sl i) .subscript (0 ≤ i.toInt ∧ i.toInt ≤ sl.len.toInt)
    (Splits h sl.seq (elements h sl) i.toNat)
  position : ∀ sl, WellFormed h sl → ∀ seq', (h seq').elems ≠ [] ∨ sl.len = 0 ∨ sl.start.toInt + sl.len.toInt + 1 < 2 ^ (w - 1) →
    ∀ eq, ∃ sls, position h eq seq' sl = .ok sls ∧
      Splits h sl.seq (elements h sl) (occurrence eq (h seq').elems (elements h sl)) sls
  span : ∀ eq : Loc → Loc → Bool, (∀ a b, eq a b = true → (h a).elems = (h b).elems) → ∀ sl, WellFormed h sl → ∀ sl',
    WellFormed h sl' → Returns (span h eq sl sl') .span
      (eq sl.seq sl'.seq = true ∧ sl.start.toInt ≤ sl'.start.toInt + sl'.len.toInt)
      (IsSlice h sl.seq
        (((h sl.seq).elems.drop sl.start.toNat).take (sl'.start.toNat + sl'.len.toNat - sl.start.toNat)))


section

variable (h : Heap L Loc α) (β) [DecidableEq Loc]

/-- **Sequence slices refine lists.** -/
theorem refinesLists : RefinesLists h β where
  subslice _ hsl := subslice_spec hsl
  getItem _ hsl := getItem_spec hsl
  copy _ hsl _ dst hsame := copy_spec hsl dst hsame
  foldli sl hsl f b := by
    obtain ⟨s, l, hof, hle⟩ := hsl.exists_of
    rw [hof]
    exact foldli_of hle f b
  foldri sl hsl f b := by
    obtain ⟨s, l, hof, hle⟩ := hsl.exists_of
    rw [hof]
    exact foldri_of hle f b
  findi sl hsl p := by
    obtain ⟨s, l, hof, hle⟩ := hsl.exists_of
    rw [hof]
    exact findi_of hle p
  collate sl hsl sl' hsl' cmp := by
    obtain ⟨s, l, hof, hle⟩ := hsl.exists_of
    obtain ⟨s', l', hof', hle'⟩ := hsl'.exists_of
    rw [hof, hof']
    exact collate_of hle hle' cmp
  append _ hsl _ hsl' := append_spec hsl hsl'
  splitl _ hsl := splitl_spec hsl
  splitr _ hsl := splitr_spec hsl
  splitAt _ hsl := splitAt_spec hsl
  position _ hsl := position_spec hsl
  span _ heq _ hsl _ hsl' := span_spec heq hsl hsl'

end

/-- The limit of sequences that `Int32.int`s index. -/
def limit32 : Limit 32 := ⟨2147483647, by decide, by decide⟩

/-- The longest sequence of units. -/
def longest : Contents limit32 Unit := ⟨List.replicate 2147483647 (), by
  rw [List.length_replicate]
  decide⟩

/-- The longest sequence, as a slice, is not appended to itself. -/
theorem not_append : ∃ sl : T Unit 32, WellFormed (fun _ => longest) sl ∧
    ¬ ∃ c, append (fun _ => longest) false (fun _ => ()) sl sl = .ok c ∧
      c.elems = elements (fun _ => longest) sl ++ elements (fun _ => longest) sl := by
  have hlength : longest.elems.length = 2147483647 := List.length_replicate
  have hwf : WellFormed (fun _ : Unit => longest) (T.of () 0 longest.elems.length) :=
    wellFormed_of (Nat.zero_add _).le
  have hlen : (T.of (w := 32) () 0 longest.elems.length).len.toInt = 2147483647 := by
    rw [hlength]
    rfl
  have hsize := (append_spec hwf hwf false fun _ => ()).2 (by
    rw [hlen]
    decide)
  refine ⟨T.of () 0 longest.elems.length, hwf, ?_⟩
  rintro ⟨c, hc, -⟩
  cases hsize.symm.trans hc

end MLton.Slice
