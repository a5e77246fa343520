import MLton.Basis.Slice

/-!
# Basis/SliceRead — the loops that read a slice are folds over its elements

A well-formed slice has a start and a length that are natural numbers, and its elements are some of the sequence
(`Reads`).  No index of a loop wraps, since it is at most one off them; and so each loop is a recursion on the elements.
-/

namespace MLton.Slice

variable {w : ℕ} {L : Limit w} {α β Loc : Type*}

/-! ## Well-formed slices -/

section WellFormed

/-- **A well-formed slice**: neither its start nor its length is negative, and its end is in the sequence. -/
structure WellFormed (h : Heap L Loc α) (sl : T Loc w) : Prop where
  start_nonneg : 0 ≤ sl.start.toInt
  len_nonneg : 0 ≤ sl.len.toInt
  end_le : sl.start.toInt + sl.len.toInt ≤ (h sl.seq).elems.length

/-- The elements of a slice. -/
def elements (h : Heap L Loc α) (sl : T Loc w) : List α :=
  ((h sl.seq).elems.drop sl.start.toNat).take sl.len.toNat

/-- The slice from a start on, of a length. -/
def T.of (seq : Loc) (s l : ℕ) : T Loc w := ⟨seq, BitVec.ofInt w s, BitVec.ofInt w l⟩

variable {h : Heap L Loc α} {sl : T Loc w} {c : Contents L α} {s l : ℕ}

theorem length_lt (c : Contents L α) : c.elems.length < 2 ^ (w - 1) := c.length_le.trans_lt L.le_maxInt

theorem toInt_natCast (L : Limit w) {k : ℕ} (hk : k < 2 ^ (w - 1)) : (BitVec.ofInt w k).toInt = k := by
  have hint : (k : ℤ) < 2 ^ (w - 1) := by exact_mod_cast hk
  exact toInt_ofInt L (by omega) hint

theorem toInt_eq_toNat {i : BitVec w} (h : 0 ≤ i.toInt) : i = BitVec.ofInt w i.toNat ∧ i.toInt = i.toNat := by
  have hnat : i.toInt = i.toNat := by
    rw [BitVec.toInt_eq_toNat_cond] at h ⊢
    split
    · rfl
    · next hlt =>
      rw [if_neg hlt] at h
      have := i.isLt
      omega
  exact ⟨by rw [← hnat, BitVec.ofInt_toInt], hnat⟩

theorem Contents.length_eq (c : Contents L α) : c.length = BitVec.ofInt w c.elems.length := (BitVec.ofInt_natCast _ _).symm

/-- **A well-formed slice is one of natural numbers.** -/
theorem WellFormed.exists_of (hsl : WellFormed h sl) : ∃ s l, sl = T.of sl.seq s l ∧ s + l ≤ (h sl.seq).elems.length := by
  obtain ⟨hstart, hs⟩ := toInt_eq_toNat hsl.start_nonneg
  obtain ⟨hlen, hl⟩ := toInt_eq_toNat hsl.len_nonneg
  refine ⟨sl.start.toNat, sl.len.toNat, ?_, ?_⟩
  · rw [T.of, ← hstart, ← hlen]
  · have := hsl.end_le
    omega

theorem wellFormed_of {seq : Loc} (hle : s + l ≤ (h seq).elems.length) : WellFormed h (T.of seq s l) := by
  have hlt := length_lt (h seq)
  have hs : (T.of (w := w) seq s l).start.toInt = s := toInt_natCast L (by omega)
  have hl : (T.of (w := w) seq s l).len.toInt = l := toInt_natCast L (by omega)
  constructor
  · omega
  · omega
  · rw [hs, hl]
    exact_mod_cast hle

theorem elements_of {seq : Loc} (hle : s + l ≤ (h seq).elems.length) :
    elements h (T.of seq s l) = ((h seq).elems.drop s).take l := by
  have hlt := length_lt (h seq)
  rw [elements, T.of, toNat_ofInt L (by omega), toNat_ofInt L (by omega)]

theorem length_elements_of {seq : Loc} (hle : s + l ≤ (h seq).elems.length) :
    (elements h (T.of (w := w) seq s l)).length = l := by
  rw [elements_of hle, List.length_take, List.length_drop]
  omega

/-- **A slice of a sequence with some elements.** -/
structure IsSlice (h : Heap L Loc α) (seq : Loc) (xs : List α) (sl : T Loc w) : Prop where
  seq_eq : sl.seq = seq
  wellFormed : WellFormed h sl
  elements_eq : elements h sl = xs

theorem isSlice_of {seq : Loc} (hle : s + l ≤ (h seq).elems.length) :
    IsSlice h seq (((h seq).elems.drop s).take l) (T.of seq s l) :=
  ⟨rfl, wellFormed_of hle, elements_of hle⟩

end WellFormed

/-! ## Elements in a sequence -/

section Reads

/-- Some elements are in a sequence, from a place on. -/
structure Reads (c : Contents L α) (s : ℕ) (xs : List α) : Prop where
  front : xs <+: c.elems.drop s
  le : s ≤ c.elems.length

variable {c : Contents L α} {s : ℕ} {x : α} {xs : List α}

theorem Reads.end_le (h : Reads c s xs) : s + xs.length ≤ c.elems.length := by
  have hlen := h.front.length_le
  rw [List.length_drop] at hlen
  have := h.le
  omega

theorem Reads.end_lt (h : Reads c s xs) : s + xs.length < 2 ^ (w - 1) := h.end_le.trans_lt (length_lt c)

theorem Reads.get (h : Reads c s xs) {j : ℕ} (hj : j < xs.length) :
    c.subUnsafe (BitVec.ofInt w (s + j : ℕ)) = .ok xs[j] := by
  have hlt := h.end_lt
  have hget : c.elems[s + j]? = some xs[j] := by
    obtain ⟨t, ht⟩ := h.front
    rw [← List.getElem?_drop, ← ht, List.getElem?_append_left hj, List.getElem?_eq_getElem hj]
  rw [Contents.subUnsafe, toNat_ofInt L (by omega), hget]

theorem Reads.head (h : Reads c s (x :: xs)) : c.subUnsafe (BitVec.ofInt w s) = .ok x := h.get (Nat.zero_lt_succ _)

theorem Reads.tail (h : Reads c s (x :: xs)) : Reads c (s + 1) xs := by
  have hle := h.end_le
  obtain ⟨t, ht⟩ := h.front
  refine ⟨⟨t, ?_⟩, ?_⟩
  · rw [← List.drop_drop, ← ht]
    rfl
  · rw [List.length_cons] at hle
    omega

theorem Reads.last (h : Reads c s (xs ++ [x])) : c.subUnsafe (BitVec.ofInt w (s + xs.length : ℕ)) = .ok x := by
  have hget := h.get (j := xs.length) (by simp)
  rw [hget, List.getElem_concat_length rfl]

theorem Reads.init (h : Reads c s (xs ++ [x])) : Reads c s xs := ⟨(List.prefix_append xs [x]).trans h.front, h.le⟩

theorem reads_elements {h : Heap L Loc α} {seq : Loc} {s l : ℕ} (hle : s + l ≤ (h seq).elems.length) :
    Reads (h seq) s (elements h (T.of (w := w) seq s l)) := by
  rw [elements_of hle]
  exact ⟨List.take_prefix _ _, by omega⟩

end Reads

/-! ## Folds -/

section Folds

variable {c : Contents L α} {m : ℕ}

theorem ofInt_succ (k : ℕ) : BitVec.ofInt w k + 1 = BitVec.ofInt w (k + 1 : ℕ) := by
  rw [Nat.cast_succ, BitVec.ofInt_add, ofInt_one]

theorem ofInt_pred (k : ℤ) : BitVec.ofInt w k - 1 = BitVec.ofInt w (k - 1) := by rw [ofInt_sub, ofInt_one]

theorem ofInt_offset (m k : ℕ) : BitVec.ofInt w (m + k : ℕ) - BitVec.ofInt w m = BitVec.ofInt w k := by
  rw [← ofInt_sub]
  exact congrArg _ (by omega)

/-- Whether an index is behind the last one. -/
theorem last_lt_iff (L : Limit w) {n k : ℕ} (hn : n < 2 ^ (w - 1)) (hk : k < 2 ^ (w - 1)) :
    (BitVec.ofInt w ((n : ℤ) - 1)).toInt < (BitVec.ofInt w (k : ℤ)).toInt ↔ n ≤ k := by
  have hint : (n : ℤ) < 2 ^ (w - 1) := by exact_mod_cast hn
  rw [toInt_natCast L hk, toInt_ofInt L (by omega) (by omega)]
  omega

/-- Whether an index is in front of the first one. -/
theorem lt_first_iff (L : Limit w) {n k : ℕ} (hn : n < 2 ^ (w - 1)) (hk : k < 2 ^ (w - 1)) :
    (BitVec.ofInt w ((k : ℤ) - 1)).toInt < (BitVec.ofInt w (n : ℤ)).toInt ↔ k ≤ n := last_lt_iff L hk hn

theorem le_iff (L : Limit w) {n k : ℕ} (hn : n < 2 ^ (w - 1)) (hk : k < 2 ^ (w - 1)) :
    (BitVec.ofInt w (n : ℤ)).toInt ≤ (BitVec.ofInt w (k : ℤ)).toInt ↔ n ≤ k := by
  rw [toInt_natCast L hn, toInt_natCast L hk]
  exact Int.ofNat_le

/-- **`foldli`'s loop** is a fold from the left. -/
theorem foldliLoop_eq (f : BitVec w → α → β → β) : ∀ {xs : List α} {k : ℕ} {b : β}, Reads c (m + k) xs →
    foldliLoop f c (BitVec.ofInt w m) (BitVec.ofInt w ((m + k + xs.length : ℕ) - 1)) (BitVec.ofInt w (m + k : ℕ)) b =
      .ok ((xs.zipIdx k).foldl (fun b p => f (BitVec.ofInt w p.2) p.1 b) b)
  | [], k, b, h => by
    rw [foldliLoop, if_pos]
    · rfl
    · exact (last_lt_iff L h.end_lt h.end_lt).mpr le_rfl
  | x :: xs, k, b, h => by
    have hlt := h.end_lt
    have hlast : m + k + (x :: xs).length = m + (k + 1) + xs.length := by
      rw [List.length_cons]
      omega
    rw [hlast] at hlt
    rw [foldliLoop, hlast, if_neg]
    · split
      · next e he => cases h.head.symm.trans he
      · next y hy =>
        obtain rfl := Except.ok.inj (h.head.symm.trans hy)
        rw [ofInt_succ, ofInt_offset, Nat.add_assoc m k 1, foldliLoop_eq f h.tail]
        rfl
    · rw [last_lt_iff L hlt (by omega)]
      omega

/-- **`foldri`'s loop** is a fold from the right. -/
theorem foldriLoop_eq (f : BitVec w → α → β → β) {xs : List α} {b : β} (h : Reads c m xs) :
    foldriLoop f c (BitVec.ofInt w m) (BitVec.ofInt w ((m + xs.length : ℕ) - 1)) b =
      .ok (xs.zipIdx.foldr (fun p b => f (BitVec.ofInt w p.2) p.1 b) b) := by
  induction xs using List.reverseRecOn generalizing b with
  | nil =>
    rw [foldriLoop, if_pos]
    · rfl
    · exact (lt_first_iff L h.end_lt h.end_lt).mpr le_rfl
  | append_singleton xs x ih =>
    have hlt := h.end_lt
    have hlast : ((m + (xs ++ [x]).length : ℕ) : ℤ) - 1 = (m + xs.length : ℕ) := by
      rw [List.length_append, List.length_singleton]
      omega
    have hlt' : m + xs.length < 2 ^ (w - 1) := by
      rw [List.length_append] at hlt
      omega
    rw [foldriLoop, hlast, if_neg]
    · split
      · next e he => cases h.last.symm.trans he
      · next y hy =>
        obtain rfl := Except.ok.inj (h.last.symm.trans hy)
        rw [ofInt_pred, ofInt_offset, ih h.init, List.zipIdx_append, List.foldr_append]
        simp
    · rw [not_lt, le_iff L (by omega) hlt']
      omega

/-- **`findi`'s loop** finds the first. -/
theorem findiLoop_eq (p : BitVec w × α → Bool) : ∀ {xs : List α} {k : ℕ}, Reads c (m + k) xs →
    findiLoop p c (BitVec.ofInt w m) (BitVec.ofInt w ((m + k + xs.length : ℕ) - 1)) (BitVec.ofInt w (m + k : ℕ)) =
      .ok (((xs.zipIdx k).map fun z => (BitVec.ofInt w z.2, z.1)).find? p)
  | [], k, h => by
    rw [findiLoop, if_pos]
    · rfl
    · exact (last_lt_iff L h.end_lt h.end_lt).mpr le_rfl
  | x :: xs, k, h => by
    have hlt := h.end_lt
    have hlast : m + k + (x :: xs).length = m + (k + 1) + xs.length := by
      rw [List.length_cons]
      omega
    rw [hlast] at hlt
    rw [findiLoop, hlast, if_neg]
    · split
      · next e he => cases h.head.symm.trans he
      · next y hy =>
        obtain rfl := Except.ok.inj (h.head.symm.trans hy)
        rw [List.zipIdx_cons, List.map_cons, List.find?_cons, ofInt_offset]
        dsimp only
        cases hp : p (BitVec.ofInt w k, x) with
        | true => rfl
        | false =>
          rw [if_neg (by simp), ofInt_succ, Nat.add_assoc m k 1, findiLoop_eq p h.tail]
    · rw [last_lt_iff L hlt (by omega)]
      omega

/-- Nothing is left exactly at the end. -/
theorem Reads.done_eq {s : ℕ} {xs : List α} (h : Reads c s xs) :
    decide ((BitVec.ofInt w (s + xs.length : ℕ)).toInt ≤ (BitVec.ofInt w s).toInt) = xs.isEmpty := by
  have hlt := h.end_lt
  rw [Bool.eq_iff_iff, decide_eq_true_iff, le_iff L hlt (by omega), List.isEmpty_iff_length_eq_zero]
  omega

/-- `collate` of lists. -/
def collateList (cmp : α → α → Ordering) : List α → List α → Ordering
  | [], [] => .eq
  | [], _ :: _ => .lt
  | _ :: _, [] => .gt
  | x :: xs, y :: ys =>
      match cmp x y with
      | .eq => collateList cmp xs ys
      | ans => ans

/-- **`collate`'s loop** collates what is left. -/
theorem collateLoop_eq (cmp : α → α → Ordering) {c' : Contents L α} : ∀ {xs ys : List α} {s t : ℕ}, Reads c s xs →
    Reads c' t ys → collateLoop cmp c c' (BitVec.ofInt w (s + xs.length : ℕ)) (BitVec.ofInt w (t + ys.length : ℕ))
      (BitVec.ofInt w s) (BitVec.ofInt w t) = .ok (collateList cmp xs ys) := by
  intro xs ys s t h h'
  rw [collateLoop, h.done_eq, h'.done_eq]
  match xs, ys, h, h' with
  | [], [], _, _ => rfl
  | [], _ :: _, _, _ => rfl
  | _ :: _, [], _, _ => rfl
  | x :: xs, y :: ys, h, h' =>
    have hend : s + (x :: xs).length = s + 1 + xs.length := by
      rw [List.length_cons]
      omega
    have hend' : t + (y :: ys).length = t + 1 + ys.length := by
      rw [List.length_cons]
      omega
    simp only [List.isEmpty_cons]
    split
    · next e he => cases h.head.symm.trans he
    · next z hz =>
      obtain rfl := Except.ok.inj (h.head.symm.trans hz)
      rw [h'.head]
      simp only [Except.bind, collateList]
      cases cmp x y with
      | eq =>
        dsimp only
        rw [ofInt_succ, ofInt_succ, hend, hend']
        exact collateLoop_eq cmp h.tail h'.tail
      | lt => rfl
      | gt => rfl
termination_by xs => xs.length

end Folds

/-! ## Searches -/

section Searches

variable {c : Contents L α}

/-- **`splitl`'s loop** stops behind the elements that it takes. -/
theorem splitlLoop_eq (f : α → Bool) : ∀ {xs : List α} {s : ℕ}, Reads c s xs →
    splitlLoop f c (BitVec.ofInt w (s + xs.length : ℕ)) (BitVec.ofInt w s) =
      .ok (BitVec.ofInt w (s + (xs.takeWhile f).length : ℕ))
  | [], s, h => by
    rw [splitlLoop, if_pos]
    · rfl
    · exact (le_iff L h.end_lt h.end_lt).mpr le_rfl
  | x :: xs, s, h => by
    have hlt := h.end_lt
    have hend : s + (x :: xs).length = s + 1 + xs.length := by
      rw [List.length_cons]
      omega
    rw [hend] at hlt
    rw [splitlLoop, hend, if_neg]
    · split
      · next e he => cases h.head.symm.trans he
      · next y hy =>
        obtain rfl := Except.ok.inj (h.head.symm.trans hy)
        cases hf : f x with
        | true =>
          rw [if_pos rfl, ofInt_succ, splitlLoop_eq f h.tail, List.takeWhile_cons_of_pos hf, List.length_cons]
          exact congrArg (fun n : ℕ => Except.ok (BitVec.ofInt w n)) (by omega)
        | false =>
          rw [if_neg (by simp), List.takeWhile_cons_of_neg (by simp [hf])]
          rfl
    · rw [le_iff L hlt (by omega)]
      omega

/-- **`splitr`'s loop** stops behind the elements that it leaves. -/
theorem splitrLoop_eq (f : α → Bool) {xs : List α} {s : ℕ} (h : Reads c s xs) :
    splitrLoop f c (BitVec.ofInt w s) (BitVec.ofInt w ((s + xs.length : ℕ) - 1)) =
      .ok (BitVec.ofInt w (s + (xs.rdropWhile f).length : ℕ)) := by
  induction xs using List.reverseRecOn with
  | nil =>
    rw [splitrLoop, if_pos]
    · rfl
    · exact (lt_first_iff L h.end_lt h.end_lt).mpr le_rfl
  | append_singleton xs x ih =>
    have hlt := h.end_lt
    have hlast : ((s + (xs ++ [x]).length : ℕ) : ℤ) - 1 = (s + xs.length : ℕ) := by
      rw [List.length_append, List.length_singleton]
      omega
    have hlt' : s + xs.length < 2 ^ (w - 1) := by
      rw [List.length_append] at hlt
      omega
    rw [splitrLoop, hlast, if_neg]
    · split
      · next e he => cases h.last.symm.trans he
      · next y hy =>
        obtain rfl := Except.ok.inj (h.last.symm.trans hy)
        cases hf : f x with
        | true => rw [if_pos rfl, ofInt_pred, ih h.init, List.rdropWhile_concat_pos _ _ _ hf]
        | false =>
          rw [if_neg (by simp), List.rdropWhile_concat_neg _ _ _ (by simp [hf]), ofInt_succ, List.length_append,
            List.length_singleton]
          rfl
    · rw [not_lt, le_iff L (by omega) hlt']
      omega

/-- Whether a list has another in front. -/
def matchesFront (eq : α → α → Bool) : List α → List α → Bool
  | _, [] => true
  | [], _ :: _ => false
  | x :: xs, y :: ys => eq x y && matchesFront eq xs ys

/-- **The place of the first occurrence**, or the end. -/
def occurrence (eq : α → α → Bool) (pat : List α) : List α → ℕ
  | [] => 0
  | x :: xs => if matchesFront eq (x :: xs) pat then 0 else occurrence eq pat xs + 1

theorem occurrence_le (eq : α → α → Bool) (pat : List α) : ∀ xs, occurrence eq pat xs ≤ xs.length
  | [] => le_rfl
  | x :: xs => by
    rw [occurrence]
    split
    · exact Nat.zero_le _
    · exact Nat.succ_le_succ (occurrence_le eq pat xs)

/-- What is in front is no longer. -/
theorem matchesFront_length (eq : α → α → Bool) : ∀ {xs ys : List α}, matchesFront eq xs ys = true → ys.length ≤ xs.length
  | _, [], _ => Nat.zero_le _
  | x :: xs, y :: ys, h => by
    rw [matchesFront, Bool.and_eq_true] at h
    exact Nat.succ_le_succ (matchesFront_length eq h.2)

/-- A pattern that is longer occurs nowhere. -/
theorem occurrence_of_short (eq : α → α → Bool) {pat : List α} : ∀ {xs : List α}, xs.length < pat.length →
    occurrence eq pat xs = xs.length
  | [], _ => rfl
  | x :: xs, h => by
    rw [occurrence, if_neg, occurrence_of_short eq ((Nat.lt_succ_self _).trans h)]
    · rfl
    · exact fun hmatch => absurd (matchesFront_length eq hmatch) (not_le.mpr h)

/-- **`position`'s inner loop** compares the pattern with what is in front. -/
theorem matchLoop_eq (eq : α → α → Bool) {c' : Contents L α} {s : ℕ} : ∀ {xs ys : List α} {j : ℕ}, Reads c (s + j) xs →
    Reads c' j ys → ys.length ≤ xs.length →
    matchLoop eq c c' (BitVec.ofInt w (j + ys.length : ℕ)) (BitVec.ofInt w s) (BitVec.ofInt w j) =
      .ok (matchesFront eq xs ys)
  | xs, [], j, h, h', _ => by
    rw [matchLoop, dif_pos, matchesFront]
    exact (le_iff L h'.end_lt h'.end_lt).mpr le_rfl
  | x :: xs, y :: ys, j, h, h', hle => by
    have hlt := h'.end_lt
    have hend : j + (y :: ys).length = j + 1 + ys.length := by
      rw [List.length_cons]
      omega
    rw [hend] at hlt
    have hsum : BitVec.ofInt w (s : ℤ) + BitVec.ofInt w (j : ℤ) = BitVec.ofInt w (s + j : ℕ) := by
      rw [Nat.cast_add, BitVec.ofInt_add]
    rw [matchLoop, hend, dif_neg, hsum, h.head, h'.head]
    · simp only [Except.bind, matchesFront]
      cases heq : eq x y with
      | true =>
        rw [if_pos rfl, ofInt_succ, Bool.true_and]
        exact matchLoop_eq eq h.tail h'.tail (Nat.le_of_succ_le_succ hle)
      | false => rfl
    · rw [le_iff L hlt (by omega)]
      omega

/-- **`position`'s loop** stops at the first occurrence, unless the bound of its index wraps. -/
theorem positionLoop_eq (eq : α → α → Bool) {c' : Contents L α} {pat : List α} (hpat : Reads c' 0 pat) :
    ∀ {xs : List α} {s : ℕ}, Reads c s xs → s + xs.length + 1 < 2 ^ (w - 1) + pat.length →
    positionLoop eq c c' (BitVec.ofInt w pat.length) (BitVec.ofInt w ((s + xs.length : ℕ) - pat.length + 1))
        (BitVec.ofInt w (s + xs.length : ℕ)) (BitVec.ofInt w s) =
      .ok (BitVec.ofInt w (s + occurrence eq pat xs : ℕ)) := by
  intro xs s h hbound
  have hlt := h.end_lt
  have hplt := hpat.end_lt
  have hintp : (pat.length : ℤ) < 2 ^ (w - 1) := by exact_mod_cast (by omega : pat.length < 2 ^ (w - 1))
  have hint : ((s + xs.length : ℕ) : ℤ) - pat.length + 1 < 2 ^ (w - 1) := by
    have : ((s + xs.length + 1 : ℕ) : ℤ) < 2 ^ (w - 1) + pat.length := by exact_mod_cast hbound
    push_cast at this ⊢
    omega
  have hmax : (BitVec.ofInt w ((s + xs.length : ℕ) - pat.length + 1)).toInt ≤ (BitVec.ofInt w s).toInt ↔
      xs.length < pat.length := by
    rw [toInt_natCast L (by omega), toInt_ofInt L (by omega) hint]
    omega
  by_cases hshort : xs.length < pat.length
  · rw [positionLoop, dif_pos (hmax.mpr hshort), occurrence_of_short eq hshort]
  · have hmatch : matchLoop eq c c' (BitVec.ofInt w pat.length) (BitVec.ofInt w s) 0 = .ok (matchesFront eq xs pat) := by
      have := @matchLoop_eq w L α c eq c' s xs pat 0 h hpat (not_lt.mp hshort)
      simpa using this
    rw [positionLoop, dif_neg (mt hmax.mp hshort), hmatch]
    simp only [Except.bind]
    match xs, h with
    | [], h =>
      obtain rfl : pat = [] := List.length_eq_zero_iff.mp (by simpa using hshort)
      rfl
    | x :: xs, h =>
      rw [occurrence]
      cases hfound : matchesFront eq (x :: xs) pat with
      | true => rfl
      | false =>
        have hend : s + (x :: xs).length = s + 1 + xs.length := by
          rw [List.length_cons]
          omega
        rw [if_neg (by simp), if_neg (by simp), ofInt_succ, hend, positionLoop_eq eq hpat h.tail (by omega)]
        exact congrArg (fun n : ℕ => Except.ok (BitVec.ofInt w n)) (by omega)
termination_by xs => xs.length

end Searches

end MLton.Slice

/-!
## Copying a slice, into its own array too

While fewer than five elements are moved one by one, the cells that have been written are an interval, and the next element
to be read is not one of them: downwards if the slice is in front of where it goes, upwards if it is behind that, or so far
in front that they do not meet.
-/

namespace MLton.Slice

variable {w : ℕ} {L : Limit w} {α Loc : Type*}

/-- Some elements of `src` have been moved: those from `lo` to `hi`, counted from `si` there and from `di` in `dst`. -/
structure Moved (h : Heap L Loc α) (dst : Loc) (di : ℕ) (src : Loc) (si lo hi : ℕ) (h' : Heap L Loc α) : Prop where
  other : ∀ o, o ≠ dst → h' o = h o
  length_eq : (h' dst).elems.length = (h dst).elems.length
  cells : ∀ k, (h' dst).elems[k]? =
    if di + lo ≤ k ∧ k < di + hi then (h src).elems[si + (k - di)]? else (h dst).elems[k]?

section Moves

variable {h h' : Heap L Loc α} {dst src : Loc} {di si lo hi i n : ℕ}

theorem moved_refl (h : Heap L Loc α) (dst src : Loc) (di si i : ℕ) : Moved h dst di src si i i h where
  other _ _ := rfl
  length_eq := rfl
  cells k := by rw [if_neg (by omega)]

/-- What has not been written is as before. -/
theorem Moved.kept [DecidableEq Loc] (hm : Moved h dst di src si lo hi h') {k : ℕ}
    (hk : dst = src → ¬ (di + lo ≤ k ∧ k < di + hi)) : (h' src).elems[k]? = (h src).elems[k]? := by
  by_cases hsrc : dst = src
  · subst hsrc
    rw [hm.cells, if_neg (hk rfl)]
  · rw [hm.other src (Ne.symm hsrc)]

theorem subUnsafe_of_get {c : Contents L α} {k : ℕ} {x : α} (h : c.elems[k]? = some x) :
    c.subUnsafe (BitVec.ofInt w k) = .ok x := by
  have hlt := (List.getElem?_eq_some_iff.mp h).1.trans (length_lt c)
  rw [Contents.subUnsafe, toNat_ofInt L hlt, h]

/-- What an element more makes of the cells. -/
theorem Moved.set (hm : Moved h dst di src si lo hi h') (hdst : di + i < (h dst).elems.length) {x : α}
    (hx : (h src).elems[si + i]? = some x) {h'' : Heap L Loc α} (hother : ∀ o, o ≠ dst → h'' o = h o)
    (hset : (h'' dst).elems = (h' dst).elems.set (di + i) x) {lo' hi' : ℕ}
    (hinterval : ∀ j, (lo' ≤ j ∧ j < hi') ↔ (lo ≤ j ∧ j < hi) ∨ j = i) : Moved h dst di src si lo' hi' h'' where
  other := hother
  length_eq := by rw [hset, List.length_set, hm.length_eq]
  cells k := by
    rw [hset, List.getElem?_set]
    by_cases hk : di + i = k
    · subst hk
      have hin := (hinterval i).mpr (.inr rfl)
      rw [if_pos rfl, if_pos (by rw [hm.length_eq]; exact hdst), if_pos (by omega), Nat.add_sub_cancel_left, hx]
    · rw [if_neg hk, hm.cells]
      by_cases hle : di ≤ k
      · obtain ⟨j, rfl⟩ := Nat.exists_eq_add_of_le hle
        have hiff := hinterval j
        have hne : j ≠ i := fun heq => hk (by rw [heq])
        simp only [Nat.add_le_add_iff_left, Nat.add_lt_add_iff_left, hiff, hne, or_false]
      · rw [if_neg (by omega), if_neg (by omega)]

variable [DecidableEq Loc]

/-- **One element is moved.** -/
theorem Moved.move (hm : Moved h dst di src si lo hi h') (hdst : di + i < (h dst).elems.length) {x : α}
    (hx : (h src).elems[si + i]? = some x) (hkept : (h' src).elems[si + i]? = (h src).elems[si + i]?) :
    ∃ h'', Slice.move h' dst (BitVec.ofInt w di) src (BitVec.ofInt w si) (BitVec.ofInt w i) = .ok h'' ∧
      (∀ o, o ≠ dst → h'' o = h o) ∧ (h'' dst).elems = (h' dst).elems.set (di + i) x := by
  have hread : (h' src).subUnsafe (BitVec.ofInt w si + BitVec.ofInt w i) = .ok x := by
    rw [← BitVec.ofInt_add]
    exact subUnsafe_of_get (hkept.trans hx)
  have hindex : (BitVec.ofInt w di + BitVec.ofInt w i).toNat = di + i := by
    rw [← BitVec.ofInt_add]
    exact toNat_ofInt L (hdst.trans (length_lt (h dst)))
  have hupdate : ∃ c, (h' dst).updateUnsafe (BitVec.ofInt w di + BitVec.ofInt w i) x = .ok c ∧
      c.elems = (h' dst).elems.set (di + i) x := by
    refine ⟨_, if_pos (by rw [hindex, hm.length_eq]; exact hdst), ?_⟩
    simp only [hindex]
  obtain ⟨c, hc, helems⟩ := hupdate
  refine ⟨Function.update h' dst c, ?_, ?_, ?_⟩
  · rw [Slice.move, hread]
    simp only [Except.bind, hc]
    rfl
  · intro o ho
    rw [Function.update_of_ne ho]
    exact hm.other o ho
  · rw [Function.update_self, helems]

/-- **Upwards**, if no element is written before it is read. -/
theorem up_moved (hdst : di + n ≤ (h dst).elems.length) (hsrc : si + n ≤ (h src).elems.length)
    (hfree : dst = src → di ≤ si ∨ si + n ≤ di) (m : ℕ) : ∀ {i : ℕ} {h' : Heap L Loc α}, i + m = n →
      Moved h dst di src si 0 i h' →
      ∃ h'', up dst (BitVec.ofInt w di) src (BitVec.ofInt w si) (BitVec.ofInt w ((n : ℤ) - 1)) (BitVec.ofInt w i) h' =
        .ok h'' ∧ Moved h dst di src si 0 n h'' := by
  have hn : n < 2 ^ (w - 1) := by
    have := length_lt (h dst)
    omega
  induction m with
  | zero =>
    intro i h' him hm
    obtain rfl : i = n := him
    refine ⟨h', ?_, hm⟩
    rw [up, if_pos ((last_lt_iff L hn hn).mpr le_rfl)]
  | succ m ih =>
    intro i h' him hm
    obtain ⟨x, hx⟩ : ∃ x, (h src).elems[si + i]? = some x := ⟨_, List.getElem?_eq_getElem (by omega)⟩
    have hkept : (h' src).elems[si + i]? = (h src).elems[si + i]? := hm.kept fun heq => by
      obtain hle | hle := hfree heq <;> omega
    obtain ⟨h'', hmove, hother, hset⟩ := hm.move (by omega) hx hkept
    have hm'' : Moved h dst di src si 0 (i + 1) h'' := hm.set (by omega) hx hother hset fun j => by omega
    obtain ⟨h₁, hup, hend⟩ := ih (by omega) hm''
    refine ⟨h₁, ?_, hend⟩
    rw [up, if_neg]
    · split
      · next e he => cases hmove.symm.trans he
      · next h₂ hh₂ =>
        obtain rfl := Except.ok.inj (hmove.symm.trans hh₂)
        rw [ofInt_succ]
        exact hup
    · rw [last_lt_iff L hn (by omega)]
      omega

/-- **Downwards**, if the slice is in front of where it goes. -/
theorem down_moved (hdst : di + n ≤ (h dst).elems.length) (hsrc : si + n ≤ (h src).elems.length)
    (hfree : dst = src → si < di) : ∀ {i : ℕ} {h' : Heap L Loc α}, i ≤ n → Moved h dst di src si i n h' →
      ∃ h'', down dst (BitVec.ofInt w di) src (BitVec.ofInt w si) (BitVec.ofInt w ((i : ℤ) - 1)) h' = .ok h'' ∧
        Moved h dst di src si 0 n h'' := by
  have hn : n < 2 ^ (w - 1) := by
    have := length_lt (h dst)
    omega
  have hint : (n : ℤ) < 2 ^ (w - 1) := by exact_mod_cast hn
  intro i
  induction i with
  | zero =>
    intro h' _ hm
    refine ⟨h', ?_, hm⟩
    rw [down, if_pos]
    rw [toInt_ofInt L (by omega) (by omega)]
    omega
  | succ i ih =>
    intro h' hle hm
    obtain ⟨x, hx⟩ : ∃ x, (h src).elems[si + i]? = some x := ⟨_, List.getElem?_eq_getElem (by omega)⟩
    have hkept : (h' src).elems[si + i]? = (h src).elems[si + i]? := hm.kept fun heq => by
      have := hfree heq
      omega
    obtain ⟨h'', hmove, hother, hset⟩ := hm.move (by omega) hx hkept
    have hm'' : Moved h dst di src si i n h'' := hm.set (by omega) hx hother hset fun j => by omega
    obtain ⟨h₁, hdown, hend⟩ := ih (Nat.le_of_succ_le hle) hm''
    refine ⟨h₁, ?_, hend⟩
    have hindex : ((i + 1 : ℕ) : ℤ) - 1 = i := by omega
    rw [hindex, down, if_neg]
    · rw [hmove, ofInt_pred]
      exact hdown
    · rw [toInt_natCast L (by omega)]
      omega

end Moves

/-! ## `copy` -/

section Copy

variable {h : Heap L Loc α}

/-- **What a copy makes of the sequences**: the elements are in the array at their place, and all else is as before. -/
def Copied (h : Heap L Loc α) (dst : Loc) (di : ℕ) (xs : List α) (h' : Heap L Loc α) : Prop :=
  (h' dst).elems = (h dst).elems.take di ++ (xs ++ (h dst).elems.drop (di + xs.length)) ∧ ∀ o, o ≠ dst → h' o = h o

theorem Moved.copied {dst src : Loc} {di si n : ℕ} {h' : Heap L Loc α} (hm : Moved h dst di src si 0 n h')
    (hdst : di + n ≤ (h dst).elems.length) (hsrc : si + n ≤ (h src).elems.length) :
    Copied h dst di (((h src).elems.drop si).take n) h' := by
  refine ⟨List.ext_getElem? fun k => ?_, hm.other⟩
  have hlength : (((h src).elems.drop si).take n).length = n := by
    rw [List.length_take, List.length_drop]
    omega
  have hlength' : ((h dst).elems.take di).length = di := by
    rw [List.length_take]
    omega
  rw [hm.cells, hlength]
  by_cases hlo : k < di
  · rw [if_neg (by omega), List.getElem?_append_left (by omega), List.getElem?_take_of_lt hlo]
  · rw [List.getElem?_append_right (by omega), hlength']
    by_cases hhi : k < di + n
    · rw [if_pos (by omega), List.getElem?_append_left (by omega), List.getElem?_take_of_lt (by omega),
        List.getElem?_drop]
    · rw [if_neg (by omega), List.getElem?_append_right (by omega), hlength, List.getElem?_drop]
      congr 1
      omega

variable [DecidableEq Loc]

/-- The array has room for a copy. -/
theorem room_iff {c : Contents L α} {l : ℕ} (hl : l < 2 ^ (w - 1)) (di : BitVec w) :
    (gtu di c.length || gtu (di + BitVec.ofInt w l) c.length) = false ↔ di.toNat + l ≤ c.elems.length := by
  have hlt := length_lt c
  have hpow : 2 ^ w = 2 * 2 ^ (w - 1) := by exact_mod_cast two_pow_width L
  have hlength : c.length.toNat = c.elems.length := by
    rw [c.length_eq]
    exact toNat_ofInt L hlt
  rw [Bool.or_eq_false_iff, gtu, gtu, decide_eq_false_iff_not, decide_eq_false_iff_not, hlength]
  constructor
  · rintro ⟨hdi, hend⟩
    rw [BitVec.toNat_add, toNat_ofInt L hl, Nat.mod_eq_of_lt (by omega)] at hend
    omega
  · intro hle
    rw [BitVec.toNat_add, toNat_ofInt L hl, Nat.mod_eq_of_lt (by omega)]
    omega

theorem inRange_iff {c : Contents L α} {l : ℕ} {di : BitVec w} :
    0 ≤ di.toInt ∧ di.toInt + l ≤ c.elems.length ↔ di.toNat + l ≤ c.elems.length := by
  have hlt := length_lt c
  constructor
  · rintro ⟨hnonneg, hle⟩
    have := (toInt_eq_toNat hnonneg).2
    omega
  · intro hle
    have hpow : 2 ^ w = 2 * 2 ^ (w - 1) := by exact_mod_cast two_pow_width L
    rw [BitVec.toInt_eq_toNat_of_lt (by omega)]
    omega

omit [DecidableEq Loc] in
/-- A block that is in both sequences is copied. -/
theorem copyUnsafe_of {dst src : Contents L α} {d s l : ℕ} (hd : d + l ≤ dst.elems.length) (hs : s + l ≤ src.elems.length) :
    ∃ c, dst.copyUnsafe (BitVec.ofInt w d) src (BitVec.ofInt w s) (BitVec.ofInt w l) = .ok c ∧
      c.elems = dst.elems.take d ++ ((src.elems.drop s).take l ++ dst.elems.drop (d + l)) := by
  have hltd := length_lt dst
  have hlts := length_lt src
  have hdn : (BitVec.ofInt w (d : ℤ)).toNat = d := toNat_ofInt L (by omega)
  have hsn : (BitVec.ofInt w (s : ℤ)).toNat = s := toNat_ofInt L (by omega)
  have hln : (BitVec.ofInt w (l : ℤ)).toNat = l := toNat_ofInt L (by omega)
  refine ⟨_, dif_pos (by rw [hdn, hsn, hln]; exact ⟨hd, hs⟩), ?_⟩
  simp only [hdn, hsn, hln]

/-- Either path moves the elements. -/
theorem maybeSmallCopy_copied {dst src : Loc} {d s l : ℕ} (hdst : d + l ≤ (h dst).elems.length)
    (hsrc : s + l ≤ (h src).elems.length) {overlap : Unit → Bool} (hdown : overlap () = true → s < d)
    (hup : overlap () = false → dst = src → d ≤ s ∨ s + l ≤ d) :
    ∃ h', maybeSmallCopy h dst (BitVec.ofInt w d) src (BitVec.ofInt w s) (BitVec.ofInt w l) overlap = .ok h' ∧
      Copied h dst d (((h src).elems.drop s).take l) h' := by
  rw [maybeSmallCopy]
  split
  · rw [smallCopy, ofInt_pred]
    cases hoverlap : overlap () with
    | true =>
      obtain ⟨h', hrun, hm⟩ := down_moved hdst hsrc (fun _ => hdown hoverlap) le_rfl (moved_refl h dst src d s l)
      exact ⟨h', hrun, hm.copied hdst hsrc⟩
    | false =>
      obtain ⟨h', hrun, hm⟩ := up_moved hdst hsrc (hup hoverlap) l (Nat.zero_add l) (moved_refl h dst src d s 0)
      exact ⟨h', by simpa using hrun, hm.copied hdst hsrc⟩
  · obtain ⟨c, hc, helems⟩ := copyUnsafe_of hdst hsrc
    rw [hc]
    refine ⟨_, rfl, ?_, fun o ho => Function.update_of_ne ho ..⟩
    rw [Function.update_self, helems, List.length_take, List.length_drop, min_eq_left (by omega)]

/-- **`copy` of a slice is as if all elements were read first**, also into its own array, at any place where there is room;
where there is none, it raises.  Either of the two paths is taken. -/
theorem copy_spec {sameArray : Bool} {sl : T Loc w} (hsl : WellFormed h sl) (dst : Loc)
    (hsame : sameArray = true ∨ dst ≠ sl.seq) (di : BitVec w) :
    (0 ≤ di.toInt ∧ di.toInt + sl.len.toInt ≤ (h dst).elems.length →
      ∃ h', copy h sameArray dst di sl = .ok h' ∧ Copied h dst di.toNat (elements h sl) h') ∧
    (¬ (0 ≤ di.toInt ∧ di.toInt + sl.len.toInt ≤ (h dst).elems.length) →
      copy h sameArray dst di sl = .error .subscript) := by
  obtain ⟨s, l, hof, hle⟩ := hsl.exists_of
  have hlt := length_lt (h sl.seq)
  have hltd := length_lt (h dst)
  generalize sl.seq = src at hof hle hlt hsame
  subst hof
  have hlen : (T.of (w := w) src s l).len.toInt = l := toInt_natCast L (by omega)
  have hroom : (gtu di (h dst).length || gtu (di + (T.of (w := w) src s l).len) (h dst).length) = false ↔
      di.toNat + l ≤ (h dst).elems.length := room_iff (by omega) di
  rw [hlen, inRange_iff, ← hroom, Bool.not_eq_false, copy]
  constructor
  · intro hfree
    have hdst := hroom.mp hfree
    have hdi : di = BitVec.ofInt w di.toNat := by rw [BitVec.ofInt_natCast, BitVec.ofNat_toNat, BitVec.setWidth_eq]
    have hdint : di.toInt = di.toNat := by
      rw [hdi, toInt_natCast L (by omega), toNat_ofInt L (by omega)]
    have hstart : (T.of (w := w) src s l).start.toInt = s := toInt_natCast L (by omega)
    have hend : ((T.of (w := w) src s l).start + (T.of (w := w) src s l).len).toInt = (s + l : ℕ) := by
      rw [T.of, ← BitVec.ofInt_add]
      exact toInt_natCast L (by omega)
    rw [hfree, elements_of hle]
    simp only [Bool.false_eq_true, if_false]
    rw [hstart, hend, hdint]
    obtain ⟨h', hcopy, hcopied⟩ := @maybeSmallCopy_copied w L α Loc h _ dst src di.toNat s l hdst hle
      (fun _ => sameArray && decide (dst = src) && decide ((s : ℤ) < di.toNat) && decide ((di.toNat : ℤ) ≤ (s + l : ℕ)))
      (fun hoverlap => by
        simp only [Bool.and_eq_true, decide_eq_true_eq] at hoverlap
        omega)
      (fun hoverlap heq => by
        have hsameArray : sameArray = true := hsame.resolve_right (not_not_intro heq)
        simp only [hsameArray, heq, decide_true, Bool.true_and, Bool.and_eq_false_iff, decide_eq_false_iff_not] at hoverlap
        omega)
    rw [← hdi] at hcopy
    exact ⟨h', hcopy, hcopied⟩
  · intro hguard
    rw [hguard]
    rfl

end Copy

end MLton.Slice
