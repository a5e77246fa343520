import MLton.Basis.VectorCreate
import Mathlib.Data.List.DropRight
import Mathlib.Tactic.Linarith

/-!
# Basis/Slice — slices of sequences, by unchecked indices

A slice is a sequence, a start and a length.  The functions on slices compute with `SeqIndex.int`s that wrap, and read and
write without a check; an access outside a sequence is an outcome of its own here, which is not an exception of the source.
The checks of `Primitive.Controls.safe` are on.
-/

namespace MLton.Slice

open Sequence (geu)

variable {w : ℕ}

/-- The exceptions, and the access outside a sequence. -/
inductive Exn where
  | size
  | span
  | subscript
  | outside
  deriving DecidableEq

/-- `maxLen`, which is at most `SeqIndex.maxInt'`. -/
structure Limit (w : ℕ) where
  maxLen : BitVec w
  le_maxInt : maxLen.toNat < 2 ^ (w - 1)
  width : 8 ≤ w

/-- The contents of a sequence. -/
structure Contents (L : Limit w) (α : Type*) where
  elems : List α
  length_le : elems.length ≤ L.maxLen.toNat

/-- `SeqIndex.gtu`. -/
def gtu (i j : BitVec w) : Bool := j.toNat < i.toNat

variable {L : Limit w} {α β Loc : Type*}

namespace Contents

/-- `S.length`. -/
def length (c : Contents L α) : BitVec w := BitVec.ofNat w c.elems.length

/-- `S.subUnsafe`. -/
def subUnsafe (c : Contents L α) (i : BitVec w) : Except Exn α :=
  match c.elems[i.toNat]? with
  | none => .error .outside
  | some x => .ok x

/-- `Array.updateUnsafe`. -/
def updateUnsafe (c : Contents L α) (i : BitVec w) (x : α) : Except Exn (Contents L α) :=
  if i.toNat < c.elems.length then
    .ok ⟨c.elems.set i.toNat x, by
      rw [List.length_set]
      exact c.length_le⟩
  else .error .outside

theorem length_blockCopy {dst src : List α} {di si n : ℕ} (hd : di + n ≤ dst.length) (hs : si + n ≤ src.length) :
    (dst.take di ++ ((src.drop si).take n ++ dst.drop (di + n))).length = dst.length := by
  simp only [List.length_append, List.length_take, List.length_drop]
  omega

/-- `S.copyUnsafe`, by which all elements are read first. -/
def copyUnsafe (dst : Contents L α) (di : BitVec w) (src : Contents L α) (si len : BitVec w) :
    Except Exn (Contents L α) :=
  if h : di.toNat + len.toNat ≤ dst.elems.length ∧ si.toNat + len.toNat ≤ src.elems.length then
    .ok ⟨dst.elems.take di.toNat ++
      ((src.elems.drop si.toNat).take len.toNat ++ dst.elems.drop (di.toNat + len.toNat)), by
      rw [length_blockCopy h.1 h.2]
      exact dst.length_le⟩
  else .error .outside

end Contents

/-- `arrayAlloc`; what an array holds before it is written is not known. -/
def arrayAlloc (junk : ℕ → α) (n : BitVec w) : Except Exn (Contents L α) :=
  if h : gtu n L.maxLen = true then .error .size
  else
    .ok ⟨(List.range n.toNat).map junk, by
      rw [List.length_map, List.length_range]
      simpa [gtu] using h⟩

/-- The contents of the sequences. -/
abbrev Heap (L : Limit w) (Loc α : Type*) := Loc → Contents L α

/-- `'a t`. -/
structure T (Loc : Type*) (w : ℕ) where
  seq : Loc
  start : BitVec w
  len : BitVec w
  deriving DecidableEq

/-! ## Indices -/

section Index

theorem two_pow_width (L : Limit w) : (2 : ℤ) ^ w = 2 * 2 ^ (w - 1) := by
  have := L.width
  rw [← pow_succ', Nat.sub_add_cancel (by omega)]

/-- An index that fits is itself. -/
theorem toInt_ofInt (L : Limit w) {k : ℤ} (hlo : -2 ^ (w - 1) ≤ k) (hhi : k < 2 ^ (w - 1)) : (BitVec.ofInt w k).toInt = k := by
  have hpow := two_pow_width L
  have hcast : ((2 ^ w : ℕ) : ℤ) = 2 * 2 ^ (w - 1) := by
    push_cast
    exact hpow
  rw [BitVec.toInt_ofInt]
  exact Int.bmod_eq_of_le (by omega) (by omega)

theorem toNat_ofInt (L : Limit w) {k : ℕ} (h : k < 2 ^ (w - 1)) : (BitVec.ofInt w k).toNat = k := by
  have hpow : 2 ^ w = 2 * 2 ^ (w - 1) := by exact_mod_cast two_pow_width L
  rw [BitVec.ofInt_natCast, BitVec.toNat_ofNat, Nat.mod_eq_of_lt (by omega)]

@[simp] theorem ofInt_one : BitVec.ofInt w 1 = 1 := by simp

@[simp] theorem ofInt_zero : BitVec.ofInt w 0 = 0 := by simp

theorem ofInt_sub (a b : ℤ) : BitVec.ofInt w (a - b) = BitVec.ofInt w a - BitVec.ofInt w b := by
  rw [sub_eq_add_neg, BitVec.ofInt_add, BitVec.ofInt_neg, BitVec.sub_eq_add_neg]

/-- The successor of what is below something does not wrap, at any width. -/
theorem succ_toInt {i j : BitVec w} (h : i.toInt < j.toInt) : (i + 1).toInt = i.toInt + 1 := by
  have hj := BitVec.toInt_lt (x := j)
  have hi := BitVec.le_toInt i
  have hpos : 0 < w := by
    by_contra hw
    obtain rfl : w = 0 := by omega
    simp only [BitVec.toInt_zero_length, lt_irrefl] at h
  have hpow : (2 : ℤ) ^ w = 2 * 2 ^ (w - 1) := by rw [← pow_succ', Nat.sub_add_cancel hpos]
  have hcast : ((2 ^ w : ℕ) : ℤ) = 2 * 2 ^ (w - 1) := by
    push_cast
    exact hpow
  have hsucc : i + 1 = BitVec.ofInt w (i.toInt + 1) := by rw [BitVec.ofInt_add, BitVec.ofInt_toInt, ofInt_one]
  rw [hsucc, BitVec.toInt_ofInt]
  exact Int.bmod_eq_of_le (by omega) (by omega)

theorem pred_toInt (L : Limit w) {i : BitVec w} (h : 0 ≤ i.toInt) : (i - 1).toInt = i.toInt - 1 := by
  have hi := BitVec.toInt_lt (x := i)
  have hpos : (0 : ℤ) < 2 ^ (w - 1) := by positivity
  have hpred : i - 1 = BitVec.ofInt w (i.toInt - 1) := by rw [ofInt_sub, BitVec.ofInt_toInt, ofInt_one]
  rw [hpred]
  exact toInt_ofInt L (by omega) (by omega)

theorem subUnsafe_lt {c : Contents L α} {i : BitVec w} {x : α} (h : c.subUnsafe i = .ok x) :
    i.toNat ≤ L.maxLen.toNat ∧ (i + 1).toNat = i.toNat + 1 := by
  have hlt : i.toNat < c.elems.length := by
    rw [Contents.subUnsafe] at h
    split at h
    · cases h
    · next hget => exact (List.getElem?_eq_some_iff.mp hget).1
  have hle := c.length_le
  have hmax := L.le_maxInt
  have hpow : 2 ^ w = 2 * 2 ^ (w - 1) := by exact_mod_cast two_pow_width L
  have hw := L.width
  have hone : (1 : BitVec w).toNat = 1 := by
    rw [← ofInt_one]
    exact toNat_ofInt L (Nat.one_lt_two_pow (by omega))
  refine ⟨by omega, ?_⟩
  rw [BitVec.toNat_add, hone, Nat.mod_eq_of_lt (by omega)]

theorem subUnsafe_nonneg {c : Contents L α} {i : BitVec w} {x : α} (h : c.subUnsafe i = .ok x) : 0 ≤ i.toInt := by
  have hle := (subUnsafe_lt h).1
  have hmax := L.le_maxInt
  have hpow : 2 ^ w = 2 * 2 ^ (w - 1) := by exact_mod_cast two_pow_width L
  rw [BitVec.toInt_eq_toNat_of_lt (by omega)]
  exact Int.natCast_nonneg _

end Index

/-! ## Copying -/

section Copy

variable [DecidableEq Loc] (h : Heap L Loc α)

/-- The write of an array. -/
def write (dst : Loc) (c : Except Exn (Contents L α)) : Except Exn (Heap L Loc α) := c.map (Function.update h dst)

/-- `move`. -/
def move (dst : Loc) (di : BitVec w) (src : Loc) (si i : BitVec w) : Except Exn (Heap L Loc α) :=
  ((h src).subUnsafe (si + i)).bind fun x => write h dst ((h dst).updateUnsafe (di + i) x)

theorem move_lt {h h' : Heap L Loc α} {dst src : Loc} {di si i : BitVec w} (hmove : move h dst di src si i = .ok h') :
    (si + i).toNat ≤ L.maxLen.toNat ∧ (si + (i + 1)).toNat = (si + i).toNat + 1 := by
  rw [move] at hmove
  cases hread : (h src).subUnsafe (si + i) with
  | error e =>
    rw [hread] at hmove
    cases hmove
  | ok x =>
    rw [← BitVec.add_assoc]
    exact subUnsafe_lt hread

/-- The first `loop` of `smallCopy`. -/
def down (dst : Loc) (di : BitVec w) (src : Loc) (si i : BitVec w) (h : Heap L Loc α) : Except Exn (Heap L Loc α) :=
  if i.toInt < 0 then .ok h else (move h dst di src si i).bind (down dst di src si (i - 1))
termination_by (i.toInt + 1).toNat
decreasing_by
  have := pred_toInt L (i := i) (by omega)
  omega

/-- The second `loop` of `smallCopy`. -/
def up (dst : Loc) (di : BitVec w) (src : Loc) (si len i : BitVec w) (h : Heap L Loc α) : Except Exn (Heap L Loc α) :=
  if len.toInt < i.toInt then .ok h
  else
    match _h : move h dst di src si i with
    | .error e => .error e
    | .ok h => up dst di src si len (i + 1) h
termination_by L.maxLen.toNat + 1 - (si + i).toNat
decreasing_by
  have := move_lt _h
  omega

/-- `smallCopy`. -/
def smallCopy (dst : Loc) (di : BitVec w) (src : Loc) (si len : BitVec w) (overlap : Unit → Bool) :
    Except Exn (Heap L Loc α) :=
  let len := len - 1
  if overlap () then down dst di src si len h else up dst di src si len 0 h

/-- `smallCopyLimit`. -/
def smallCopyLimit : ℤ := 5

/-- `maybeSmallCopy`. -/
def maybeSmallCopy (dst : Loc) (di : BitVec w) (src : Loc) (si len : BitVec w) (overlap : Unit → Bool) :
    Except Exn (Heap L Loc α) :=
  if len.toInt < smallCopyLimit then smallCopy h dst di src si len overlap
  else write h dst ((h dst).copyUnsafe di (h src) si len)

/-- `copy`.  `sameArray` is whether the source is an array at all. -/
def copy (sameArray : Bool) (dst : Loc) (di : BitVec w) (sl : T Loc w) : Except Exn (Heap L Loc α) :=
  if gtu di (h dst).length || gtu (di + sl.len) (h dst).length then .error .subscript
  else
    let overlap := fun _ => sameArray && decide (dst = sl.seq) && decide (sl.start.toInt < di.toInt) &&
      decide (di.toInt ≤ (sl.start + sl.len).toInt)
    maybeSmallCopy h dst di sl.seq sl.start sl.len overlap

end Copy

/-! ## Reading -/

section Read

variable (h : Heap L Loc α)

/-- `full`. -/
def full (seq : Loc) : T Loc w := ⟨seq, 0, (h seq).length⟩

/-- `unsafeSubslice`. -/
def unsafeSubslice (sl : T Loc w) (start' : BitVec w) (len' : Option (BitVec w)) : T Loc w :=
  ⟨sl.seq, sl.start + start', match len' with | none => sl.len - start' | some len' => len'⟩

/-- `unsafeSlice`. -/
def unsafeSlice (seq : Loc) (start : BitVec w) (len : Option (BitVec w)) : T Loc w :=
  unsafeSubslice (full h seq) start len

/-- `subslice`. -/
def subslice (sl : T Loc w) (start' : BitVec w) : Option (BitVec w) → Except Exn (T Loc w)
  | none =>
      if gtu start' sl.len then .error .subscript
      else .ok ⟨sl.seq, sl.start + start', sl.len - start'⟩
  | some len' =>
      if gtu start' sl.len || gtu len' (sl.len - start') then .error .subscript
      else .ok ⟨sl.seq, sl.start + start', len'⟩

/-- `getItem`. -/
def getItem (sl : T Loc w) : Except Exn (Option (α × T Loc w)) :=
  if sl.len = 0 then .ok none
  else ((h sl.seq).subUnsafe sl.start).map fun x => some (x, ⟨sl.seq, sl.start + 1, sl.len - 1⟩)

/-- The `loop` of `foldli`. -/
def foldliLoop (f : BitVec w → α → β → β) (c : Contents L α) (min max i : BitVec w) (b : β) : Except Exn β :=
  if max.toInt < i.toInt then .ok b
  else
    match _h : c.subUnsafe i with
    | .error e => .error e
    | .ok x => foldliLoop f c min max (i + 1) (f (i - min) x b)
termination_by L.maxLen.toNat + 1 - i.toNat
decreasing_by
  have := subUnsafe_lt _h
  omega

/-- `foldli`. -/
def foldli (f : BitVec w → α → β → β) (b : β) (sl : T Loc w) : Except Exn β :=
  let min := sl.start
  let len := sl.len - 1
  let max := sl.start + len
  foldliLoop f (h sl.seq) min max min b

/-- The `loop` of `foldri`. -/
def foldriLoop (f : BitVec w → α → β → β) (c : Contents L α) (min i : BitVec w) (b : β) : Except Exn β :=
  if i.toInt < min.toInt then .ok b
  else
    match _h : c.subUnsafe i with
    | .error e => .error e
    | .ok x => foldriLoop f c min (i - 1) (f (i - min) x b)
termination_by (i.toInt + 1).toNat
decreasing_by
  have := subUnsafe_nonneg _h
  have := pred_toInt L (i := i) (by omega)
  omega

/-- `foldri`. -/
def foldri (f : BitVec w → α → β → β) (b : β) (sl : T Loc w) : Except Exn β :=
  let min := sl.start
  let len := sl.len - 1
  let max := sl.start + len
  foldriLoop f (h sl.seq) min max b

/-- The `loop` of `findi`. -/
def findiLoop (p : BitVec w × α → Bool) (c : Contents L α) (min max i : BitVec w) : Except Exn (Option (BitVec w × α)) :=
  if max.toInt < i.toInt then .ok none
  else
    match _h : c.subUnsafe i with
    | .error e => .error e
    | .ok x =>
        let z := (i - min, x)
        if p z then .ok (some z) else findiLoop p c min max (i + 1)
termination_by L.maxLen.toNat + 1 - i.toNat
decreasing_by
  have := subUnsafe_lt _h
  omega

/-- `findi`. -/
def findi (p : BitVec w × α → Bool) (sl : T Loc w) : Except Exn (Option (BitVec w × α)) :=
  let min := sl.start
  let len := sl.len - 1
  let max := sl.start + len
  findiLoop p (h sl.seq) min max min

/-- The `loop` of `collate`. -/
def collateLoop (cmp : α → α → Ordering) (c1 c2 : Contents L α) (max1 max2 i j : BitVec w) : Except Exn Ordering :=
  match decide (max1.toInt ≤ i.toInt), decide (max2.toInt ≤ j.toInt) with
  | true, true => .ok .eq
  | true, false => .ok .lt
  | false, true => .ok .gt
  | false, false =>
      match _h : c1.subUnsafe i with
      | .error e => .error e
      | .ok x =>
          (c2.subUnsafe j).bind fun y =>
            match cmp x y with
            | .eq => collateLoop cmp c1 c2 max1 max2 (i + 1) (j + 1)
            | ans => .ok ans
termination_by L.maxLen.toNat + 1 - i.toNat
decreasing_by
  have := subUnsafe_lt _h
  omega

/-- `collate`. -/
def collate (cmp : α → α → Ordering) (sl1 sl2 : T Loc w) : Except Exn Ordering :=
  let max1 := sl1.start + sl1.len
  let max2 := sl2.start + sl2.len
  collateLoop cmp (h sl1.seq) (h sl2.seq) max1 max2 sl1.start sl2.start

/-- `sequence`, up to the identity of the sequence. -/
def sequence (isMutable : Bool) (junk : ℕ → α) (sl : T Loc w) : Except Exn (Contents L α) :=
  if isMutable || (sl.start ≠ 0 || sl.len ≠ (h sl.seq).length) then
    (arrayAlloc junk sl.len).bind fun a => a.copyUnsafe 0 (h sl.seq) sl.start sl.len
  else .ok (h sl.seq)

/-- `append`. -/
def append (isMutable : Bool) (junk : ℕ → α) (sl1 sl2 : T Loc w) : Except Exn (Contents L α) :=
  if sl1.len = 0 then sequence h isMutable junk sl2
  else if sl2.len = 0 then sequence h isMutable junk sl1
  else
    let n := sl1.len + sl2.len
    (arrayAlloc junk n).bind fun a =>
      (a.copyUnsafe 0 (h sl1.seq) sl1.start sl1.len).bind fun a =>
        a.copyUnsafe sl1.len (h sl2.seq) sl2.start sl2.len

/-- `split`. -/
def split (sl : T Loc w) (i : BitVec w) : T Loc w × T Loc w :=
  (unsafeSlice h sl.seq sl.start (some (i - sl.start)), unsafeSlice h sl.seq i (some (sl.len - (i - sl.start))))

/-- The `loop` of `splitl`. -/
def splitlLoop (f : α → Bool) (c : Contents L α) (stop i : BitVec w) : Except Exn (BitVec w) :=
  if stop.toInt ≤ i.toInt then .ok i
  else
    match _h : c.subUnsafe i with
    | .error e => .error e
    | .ok x => if f x then splitlLoop f c stop (i + 1) else .ok i
termination_by L.maxLen.toNat + 1 - i.toNat
decreasing_by
  have := subUnsafe_lt _h
  omega

/-- `splitl`. -/
def splitl (f : α → Bool) (sl : T Loc w) : Except Exn (T Loc w × T Loc w) :=
  let stop := sl.start + sl.len
  (splitlLoop f (h sl.seq) stop sl.start).map (split h sl)

/-- The `loop` of `splitr`. -/
def splitrLoop (f : α → Bool) (c : Contents L α) (start i : BitVec w) : Except Exn (BitVec w) :=
  if i.toInt < start.toInt then .ok start
  else
    match _h : c.subUnsafe i with
    | .error e => .error e
    | .ok x => if f x then splitrLoop f c start (i - 1) else .ok (i + 1)
termination_by (i.toInt + 1).toNat
decreasing_by
  have := subUnsafe_nonneg _h
  have := pred_toInt L (i := i) (by omega)
  omega

/-- `splitr`. -/
def splitr (f : α → Bool) (sl : T Loc w) : Except Exn (T Loc w × T Loc w) :=
  (splitrLoop f (h sl.seq) sl.start (sl.start + sl.len - 1)).map (split h sl)

/-- `splitAt`. -/
def splitAt (sl : T Loc w) (i : BitVec w) : Except Exn (T Loc w × T Loc w) :=
  if gtu i sl.len then .error .subscript
  else .ok (unsafeSlice h sl.seq sl.start (some i), unsafeSlice h sl.seq (sl.start + i) (some (sl.len - i)))

/-- The `loop'` of `position`: whether it ends at `i`. -/
def matchLoop (eq : α → α → Bool) (c c' : Contents L α) (len' i j : BitVec w) : Except Exn Bool :=
  if hj : len'.toInt ≤ j.toInt then .ok true
  else
    (c.subUnsafe (i + j)).bind fun x => (c'.subUnsafe j).bind fun y =>
      if eq x y then matchLoop eq c c' len' i (j + 1) else .ok false
termination_by (len'.toInt - j.toInt).toNat
decreasing_by
  have := succ_toInt (not_le.mp hj)
  omega

/-- The `loop` of `position`. -/
def positionLoop (eq : α → α → Bool) (c c' : Contents L α) (len' max stop i : BitVec w) :
    Except Exn (BitVec w) :=
  if hi : max.toInt ≤ i.toInt then .ok stop
  else
    (matchLoop eq c c' len' i 0).bind fun found =>
      if found then .ok i else positionLoop eq c c' len' max stop (i + 1)
termination_by (max.toInt - i.toInt).toNat
decreasing_by
  have := succ_toInt (not_le.mp hi)
  omega

/-- `position`. -/
def position (eq : α → α → Bool) (seq' : Loc) (sl : T Loc w) : Except Exn (T Loc w × T Loc w) :=
  let len' := (h seq').length
  let max := sl.start + sl.len - len' + 1
  (positionLoop eq (h sl.seq) (h seq') len' max (sl.start + sl.len) sl.start).map (split h sl)

/-- `span`. -/
def span (eq : Loc → Loc → Bool) (sl sl' : T Loc w) : Except Exn (T Loc w) :=
  if !eq sl.seq sl'.seq || decide ((sl'.start + sl'.len).toInt < sl.start.toInt) then .error .span
  else .ok (unsafeSlice h sl.seq sl.start (some ((sl'.start + sl'.len) - sl.start)))

end Read

end MLton.Slice
