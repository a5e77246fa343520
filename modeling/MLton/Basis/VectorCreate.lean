import Mathlib.Data.BitVec

/-!
# Basis/VectorCreate — `create`, a vector that is filled from outside

`create` hands out three functions over one array: `update` fills it in order and may change what is there, `sub`
reads it, `done` returns it as a vector.  `done` resets the limit of `update`, so that a later `update (0, x)` finds
the entry at the limit and starts over on the array that has been returned.

* `run_kept` — in a run without such a call, the functions do what they are for;
* `run_overwrites` — with such a call the returned vector changes, and an entry of it can be read no more.
-/

namespace MLton.Sequence

variable {α : Type*} {w : ℕ}

/-- The exceptions. -/
inductive Exn where
  | createAlreadyGotVector
  | createVectorNotFull
  | overflow
  | size
  | subscript
deriving DecidableEq, Repr

/-- The array and the references of `create`; a cell is empty before the first write. -/
structure Creating (α : Type*) (w : ℕ) where
  a : ℕ → Option α
  subLim : BitVec w
  updateLim : BitVec w
  gotIt : Bool

/-- `SeqIndex.geu`. -/
def geu (i j : BitVec w) : Bool := j.toNat ≤ i.toNat

/-- `SeqIndex.+`. -/
def add (i j : BitVec w) : Except Exn (BitVec w) :=
  if i.toInt + j.toInt = (i + j).toInt then .ok (i + j) else .error .overflow

/-- `create`, up to the functions it returns.  `safe` is `Primitive.Controls.safe`. -/
def create (safe : Bool) (maxLen n : BitVec w) : Except Exn (Creating α w) :=
  if safe && !geu maxLen n then .error .size
  else .ok { a := fun _ => none, subLim := 0, updateLim := 0, gotIt := false }

/-- `sub`.  Where no value has been written, what is read is not known. -/
def sub (safe : Bool) (i : BitVec w) (s : Creating α w) : Except Exn (Option α) :=
  if safe && geu i s.subLim then .error .subscript else .ok (s.a i.toNat)

/-- `update`. -/
def update (safe : Bool) (n i : BitVec w) (x : α) (s : Creating α w) : Except Exn (Creating α w) :=
  if safe && geu i s.updateLim then
    if i = s.updateLim ∧ i.toInt < n.toInt then
      match add i 1 with
      | .ok next => .ok { s with a := Function.update s.a i.toNat (some x), subLim := next, updateLim := next }
      | .error e => .error e
    else .error .subscript
  else .ok { s with a := Function.update s.a i.toNat (some x) }

/-- `done`. -/
def done (n : BitVec w) (s : Creating α w) : Except Exn (Creating α w) :=
  if s.gotIt then .error .createAlreadyGotVector
  else if n = s.updateLim then .ok { s with gotIt := true, updateLim := 0 }
  else .error .createVectorNotFull

/-! ## Calls -/

/-- A call of one of the functions. -/
inductive Call (α : Type*) (w : ℕ) where
  | sub (i : BitVec w)
  | update (i : BitVec w) (x : α)
  | done

/-- How it comes back. -/
inductive Reply (α : Type*) where
  | value (x : Option α)
  | unit
  | vector
  | raised (e : Exn)

/-- One call.  A call that raises leaves the array and the references as they are. -/
def call (safe : Bool) (n : BitVec w) (s : Creating α w) : Call α w → Reply α × Creating α w
  | .sub i =>
    match sub safe i s with
    | .ok x => (.value x, s)
    | .error e => (.raised e, s)
  | .update i x =>
    match update safe n i x s with
    | .ok s' => (.unit, s')
    | .error e => (.raised e, s)
  | .done =>
    match done n s with
    | .ok s' => (.vector, s')
    | .error e => (.raised e, s)

/-- The calls so far, with their replies, latest last. -/
abbrev History (α : Type*) (w : ℕ) := List (Call α w × Reply α)

/-- What a call adds to the entries that have been initialised. -/
def note (es : List α) : Call α w × Reply α → List α
  | (.update i x, .unit) => if i.toNat = es.length then es ++ [x] else es.set i.toNat x
  | _ => es

/-- **The entries that have been initialised**, each with its last value. -/
def entries (h : History α w) : List α := h.foldl note []

/-- `done` has returned a vector. -/
def gotten (h : History α w) : Prop := ∃ c, (c, Reply.vector) ∈ h

/-- A run from `create n`. -/
inductive Run (safe : Bool) (maxLen n : BitVec w) : History α w → Creating α w → Prop
  | create {s : Creating α w} (h : create safe maxLen n = .ok s) : Run safe maxLen n [] s
  | call {h : History α w} {s : Creating α w} (hr : Run safe maxLen n h s) (c : Call α w) :
      Run safe maxLen n (h ++ [(c, (call safe n s c).1)]) (call safe n s c).2

/-- **What the functions are for**, at one call after a history. -/
structure CallOk (n : BitVec w) (h : History α w) (s : Creating α w) (c : Call α w) (r : Reply α)
    (s' : Creating α w) : Prop where
  sub : ∀ i, c = .sub i → r = ((entries h)[i.toNat]?).elim (.raised .subscript) (.value ∘ some)
  update : ∀ i x, c = .update i x → ¬ gotten h →
    (r = .unit ↔ i.toNat ≤ (entries h).length ∧ i.toInt < n.toInt ∧ 0 ≤ i.toInt)
  done : c = .done → (r = .vector ↔ ¬ gotten h ∧ (entries h).length = n.toNat)
  kept : gotten h → entries (h ++ [(c, r)]) = entries h ∧ ∀ j < n.toNat, s'.a j = s.a j

/-- The call does not start over on a vector that has been returned. -/
def Careful (n : BitVec w) (h : History α w) (c : Call α w) : Prop := gotten h → n ≠ 0 → ∀ x, c ≠ .update 0 x

/-- A run whose calls do not. -/
inductive CarefulRun (safe : Bool) (maxLen n : BitVec w) : History α w → Creating α w → Prop
  | create {s : Creating α w} (h : create safe maxLen n = .ok s) : CarefulRun safe maxLen n [] s
  | call {h : History α w} {s : Creating α w} (hr : CarefulRun safe maxLen n h s) (c : Call α w)
      (hc : Careful n h c) : CarefulRun safe maxLen n (h ++ [(c, (call safe n s c).1)]) (call safe n s c).2

/-! ## The invariant -/

/-- The entries are in the array up to `subLim`, which is also the limit of `update` until `done` returns. -/
structure Inv (n : BitVec w) (h : History α w) (s : Creating α w) : Prop where
  cells : ∀ j, j < (entries h).length → s.a j = (entries h)[j]?
  subLim : s.subLim.toNat = (entries h).length
  le : (entries h).length ≤ n.toNat
  gotIt : s.gotIt = true ↔ gotten h
  before : ¬ gotten h → s.updateLim = s.subLim
  after : gotten h → s.updateLim = 0 ∧ (entries h).length = n.toNat

variable {n maxLen i : BitVec w} {h : History α w} {s : Creating α w} {x : α}

theorem entries_append (h : History α w) (c : Call α w × Reply α) : entries (h ++ [c]) = note (entries h) c := by
  simp [entries, List.foldl_append]

theorem gotten_append {c : Call α w} {r : Reply α} : gotten (h ++ [(c, r)]) ↔ gotten h ∨ r = .vector := by
  simp only [gotten, List.mem_append, List.mem_singleton, Prod.mk.injEq]
  constructor
  · rintro ⟨c', hc | ⟨-, hr⟩⟩
    · exact .inl ⟨c', hc⟩
    · exact .inr hr.symm
  · rintro (⟨c', hc⟩ | hr)
    · exact ⟨c', .inl hc⟩
    · exact ⟨c, .inr ⟨rfl, hr.symm⟩⟩

/-- A length, and what is below it, is the same with and without a sign. -/
theorem two_mul_lt (hn : 0 ≤ n.toInt) : 2 * n.toNat < 2 ^ w := by
  by_contra hge
  rw [BitVec.toInt_eq_toNat_cond, if_neg hge] at hn
  have := n.isLt
  omega

theorem toInt_eq_of_le (hn : 0 ≤ n.toInt) (hi : i.toNat ≤ n.toNat) : i.toInt = i.toNat :=
  BitVec.toInt_eq_toNat_of_lt (by
    have := two_mul_lt hn
    omega)

/-- The next index, where there is one. -/
theorem add_one (hn : 0 ≤ n.toInt) (hi : i.toNat < n.toNat) : add i 1 = .ok (i + 1) ∧ (i + 1).toNat = i.toNat + 1 := by
  have hlt := two_mul_lt hn
  have hw : 1 < 2 ^ w := by omega
  have hone : (1 : BitVec w).toNat = 1 := by simp [BitVec.toNat_ofNat, Nat.mod_eq_of_lt hw]
  have hnext : (i + 1).toNat = i.toNat + 1 := by
    rw [BitVec.toNat_add, hone, Nat.mod_eq_of_lt (by omega)]
  refine ⟨?_, hnext⟩
  have h1 : (1 : BitVec w).toInt = 1 := by
    rw [toInt_eq_of_le hn (by omega), hone]
    rfl
  rw [add, if_pos]
  rw [toInt_eq_of_le hn hi.le, toInt_eq_of_le hn (i := i + 1) (by omega), h1, hnext]
  simp

/-- No call changes the entries but `update`. -/
theorem Inv.keep (hs : Inv n h s) {c : Call α w} {r : Reply α} (hr : r ≠ .vector) (hnote : note (entries h) (c, r) = entries h) :
    Inv n (h ++ [(c, r)]) s := by
  have hg : gotten (h ++ [(c, r)]) ↔ gotten h := by simp [gotten_append, hr]
  have he : entries (h ++ [(c, r)]) = entries h := by rw [entries_append, hnote]
  exact ⟨by rw [he]; exact hs.cells, by rw [he]; exact hs.subLim, by rw [he]; exact hs.le, by rw [hg]; exact hs.gotIt,
    fun hnot => hs.before (mt hg.mpr hnot), fun hgot => by rw [he]; exact hs.after (hg.mp hgot)⟩

theorem geu_iff {i j : BitVec w} : geu i j = true ↔ j.toNat ≤ i.toNat := by simp [geu]

/-- `sub`. -/
theorem step_sub (hs : Inv n h s) (i : BitVec w) :
    CallOk n h s (.sub i) (call true n s (.sub i)).1 (call true n s (.sub i)).2 ∧
      Inv n (h ++ [(.sub i, (call true n s (.sub i)).1)]) (call true n s (.sub i)).2 := by
  have hreply : call true n s (.sub i) =
      (((entries h)[i.toNat]?).elim (.raised .subscript) (.value ∘ some), s) := by
    by_cases hi : i.toNat < (entries h).length
    · have hgeu : geu i s.subLim = false := by
        rw [← Bool.not_eq_true, geu_iff, hs.subLim]
        omega
      rw [call, sub, hgeu]
      simp [hs.cells i.toNat hi, List.getElem?_eq_getElem hi]
    · have hgeu : geu i s.subLim = true := by
        rw [geu_iff, hs.subLim]
        omega
      rw [call, sub, hgeu]
      simp [List.getElem?_eq_none (not_lt.mp hi)]
  rw [hreply]
  have hvector : ((entries h)[i.toNat]?).elim (.raised .subscript) (.value ∘ some) ≠ (.vector : Reply α) := by
    cases (entries h)[i.toNat]? <;> simp
  refine ⟨⟨fun j hj => ?_, fun j x hj => (nomatch hj), fun hj => (nomatch hj), fun _ => ⟨?_, fun _ _ => rfl⟩⟩,
    hs.keep hvector rfl⟩
  · cases hj
    rfl
  · rw [entries_append]
    rfl

/-- `done`. -/
theorem step_done (hs : Inv n h s) :
    CallOk n h s .done (call true n s .done).1 (call true n s .done).2 ∧
      Inv n (h ++ [(.done, (call true n s .done).1)]) (call true n s .done).2 := by
  by_cases hgot : gotten h
  · have hreply : call true n s .done = (.raised .createAlreadyGotVector, s) := by
      simp [call, done, hs.gotIt.mpr hgot]
    rw [hreply]
    refine ⟨⟨fun i hi => (nomatch hi), fun i x hi => (nomatch hi), fun _ => by simp [hgot], fun _ => ⟨?_, fun _ _ => rfl⟩⟩,
      hs.keep (by simp) rfl⟩
    rw [entries_append]
    rfl
  · have hnot : s.gotIt = false := by
      rw [← Bool.not_eq_true]
      exact mt hs.gotIt.mp hgot
    have hlen : n = s.updateLim ↔ (entries h).length = n.toNat := by
      rw [hs.before hgot, ← hs.subLim, ← BitVec.toNat_inj]
      exact eq_comm
    by_cases hfull : n = s.updateLim
    · have hreply : call true n s .done = (.vector, { s with gotIt := true, updateLim := 0 }) := by
        simp only [call, done, hnot, Bool.false_eq_true, if_false, if_pos hfull]
      rw [hreply]
      have he : entries (h ++ [(.done, (.vector : Reply α))]) = entries h := entries_append ..
      refine ⟨⟨fun i hi => (nomatch hi), fun i x hi => (nomatch hi), fun _ => by simp [hgot, hlen.mp hfull],
        fun hg => absurd hg hgot⟩, ⟨?_, ?_, ?_, ?_, ?_, ?_⟩⟩
      · rw [he]
        exact hs.cells
      · rw [he]
        exact hs.subLim
      · rw [he]
        exact hs.le
      · simp [gotten_append]
      · exact fun hg => absurd (gotten_append.mpr (.inr rfl)) hg
      · rw [he]
        exact fun _ => ⟨rfl, hlen.mp hfull⟩
    · have hreply : call true n s .done = (.raised .createVectorNotFull, s) := by
        simp only [call, done, hnot, Bool.false_eq_true, if_false, if_neg hfull]
      rw [hreply]
      refine ⟨⟨fun i hi => (nomatch hi), fun i x hi => (nomatch hi), fun _ => ?_, fun hg => absurd hg hgot⟩,
        hs.keep (by simp) rfl⟩
      simp [mt hlen.mpr hfull]

/-- `update` at the limit: an entry is added. -/
theorem update_next (hs : Inv n h s) (hn : 0 ≤ n.toInt) (hgot : ¬ gotten h) (hi : i.toNat = (entries h).length)
    (hlt : i.toNat < n.toNat) :
    update true n i x s = .ok { s with a := Function.update s.a i.toNat (some x), subLim := i + 1, updateLim := i + 1 } ∧
      (i + 1).toNat = (entries h ++ [x]).length := by
  obtain ⟨hadd, hnext⟩ := add_one hn hlt
  have hlim : s.updateLim.toNat = (entries h).length := by rw [hs.before hgot, hs.subLim]
  have hgeu : geu i s.updateLim = true := by rw [geu_iff, hlim, hi]
  have heq : i = s.updateLim := BitVec.eq_of_toNat_eq (by rw [hi, hlim])
  have hint : i.toInt < n.toInt := by
    rw [toInt_eq_of_le hn hlt.le, toInt_eq_of_le hn le_rfl]
    exact_mod_cast hlt
  refine ⟨?_, by rw [hnext, hi, List.length_append, List.length_singleton]⟩
  rw [update, hgeu, if_pos (by simp), if_pos ⟨heq, hint⟩, hadd]

/-- The invariant after a write: the array has the entries that are noted. -/
theorem Inv.write (hs : Inv n h s) (hgot : ¬ gotten h) (hle : i.toNat ≤ (entries h).length) (hlt : i.toNat < n.toNat)
    {lim : BitVec w} (hlim : lim.toNat = (note (entries h) (.update i x, .unit)).length) :
    Inv n (h ++ [(.update i x, .unit)])
      { s with a := Function.update s.a i.toNat (some x), subLim := lim, updateLim := lim } := by
  have hg : ¬ gotten (h ++ [(.update i x, (.unit : Reply α))]) := by simp [gotten_append, hgot]
  refine ⟨fun j hj => ?_, by rw [entries_append, hlim], ?_, ?_, fun _ => rfl, fun hgot' => absurd hgot' hg⟩
  · rw [entries_append] at hj ⊢
    simp only [note] at hj ⊢
    by_cases hji : j = i.toNat
    · subst hji
      rw [Function.update_self]
      split
      · rename_i heq
        simp [heq]
      · rw [List.getElem?_set_self (by omega)]
    · rw [Function.update_of_ne hji]
      split
      · rename_i heq
        rw [if_pos heq, List.length_append, List.length_singleton] at hj
        rw [List.getElem?_append_left (by omega)]
        exact hs.cells j (by omega)
      · rename_i hne
        rw [if_neg hne, List.length_set] at hj
        rw [List.getElem?_set_ne (Ne.symm hji)]
        exact hs.cells j hj
  · rw [entries_append]
    simp only [note]
    split
    · rw [List.length_append, List.length_singleton]
      omega
    · rw [List.length_set]
      exact hs.le
  · refine iff_of_false ?_ hg
    exact mt hs.gotIt.mp hgot

/-- `update`. -/
theorem step_update (hs : Inv n h s) (hn : 0 ≤ n.toInt) (i : BitVec w) (x : α) (hc : Careful n h (.update i x)) :
    CallOk n h s (.update i x) (call true n s (.update i x)).1 (call true n s (.update i x)).2 ∧
      Inv n (h ++ [(.update i x, (call true n s (.update i x)).1)]) (call true n s (.update i x)).2 := by
  have hnn : (n.toInt : ℤ) = n.toNat := toInt_eq_of_le hn le_rfl
  by_cases hgot : gotten h
  · -- The limit is zero, and the index is not, unless there is nothing to index.
    obtain ⟨hlim, hlen⟩ := hs.after hgot
    have hcond : ¬ (i = s.updateLim ∧ i.toInt < n.toInt) := by
      rintro ⟨rfl, hlt⟩
      refine hc hgot (fun h0 => ?_) x (by rw [hlim])
      rw [hlim, h0] at hlt
      exact lt_irrefl _ hlt
    have hgeu : geu i s.updateLim = true := by rw [geu_iff, hlim]; simp
    have hreply : call true n s (.update i x) = (.raised .subscript, s) := by
      simp only [call, update, hgeu, Bool.and_self, if_true, if_neg hcond]
    rw [hreply]
    refine ⟨⟨fun j hj => (nomatch hj), fun j y _ hnot => absurd hgot hnot, fun hj => (nomatch hj), fun _ =>
      ⟨?_, fun _ _ => rfl⟩⟩, hs.keep (by simp) rfl⟩
    rw [entries_append]
    rfl
  · have hlim : s.updateLim.toNat = (entries h).length := by rw [hs.before hgot, hs.subLim]
    have hok : ∀ {r : Reply α} {s' : Creating α w},
        (r = .unit ↔ i.toNat ≤ (entries h).length ∧ i.toInt < n.toInt ∧ 0 ≤ i.toInt) →
          CallOk n h s (.update i x) r s' := fun hr =>
      ⟨fun j hj => (nomatch hj), fun j y hj _ => by cases hj; exact hr, fun hj => (nomatch hj), fun hg => absurd hg hgot⟩
    by_cases hin : i.toNat < (entries h).length
    · -- Below the limit: an entry gets another value.
      have hlt : i.toNat < n.toNat := hin.trans_le hs.le
      have hint : (i.toInt : ℤ) = i.toNat := toInt_eq_of_le hn hlt.le
      have hgeu : geu i s.updateLim = false := by
        rw [← Bool.not_eq_true, geu_iff, hlim]
        omega
      have hreply : call true n s (.update i x) =
          (.unit, { s with a := Function.update s.a i.toNat (some x) }) := by
        simp only [call, update, hgeu, Bool.and_false, Bool.false_eq_true, if_false]
      have hsame : ({ s with a := Function.update s.a i.toNat (some x) } : Creating α w) =
          { s with a := Function.update s.a i.toNat (some x), subLim := s.subLim, updateLim := s.subLim } := by
        rw [← hs.before hgot]
      rw [hreply]
      refine ⟨hok (iff_of_true rfl ⟨hin.le, by omega, by omega⟩), ?_⟩
      rw [hsame]
      refine hs.write hgot hin.le hlt ?_
      rw [hs.subLim, note, if_neg (by omega), List.length_set]
    · have hgeu : geu i s.updateLim = true := by
        rw [geu_iff, hlim]
        omega
      by_cases hnext : i.toNat = (entries h).length ∧ i.toNat < n.toNat
      · -- At the limit: the next entry.
        obtain ⟨heq, hlt⟩ := hnext
        obtain ⟨hupdate, hlen⟩ := update_next (x := x) hs hn hgot heq hlt
        have hint : (i.toInt : ℤ) = i.toNat := toInt_eq_of_le hn hlt.le
        have hreply : call true n s (.update i x) = (.unit,
            { s with a := Function.update s.a i.toNat (some x), subLim := i + 1, updateLim := i + 1 }) := by
          simp only [call, hupdate]
        rw [hreply]
        refine ⟨hok (iff_of_true rfl ⟨heq.le, by omega, by omega⟩), hs.write hgot heq.le hlt ?_⟩
        rw [hlen, note, if_pos heq]
      · -- Beyond it.
        have hcond : ¬ (i = s.updateLim ∧ i.toInt < n.toInt) := by
          rintro ⟨rfl, hlt⟩
          rw [toInt_eq_of_le hn (hlim ▸ hs.le)] at hlt
          omega
        have hreply : call true n s (.update i x) = (.raised .subscript, s) := by
          simp only [call, update, hgeu, Bool.and_self, if_true, if_neg hcond]
        rw [hreply]
        refine ⟨hok (iff_of_false (by simp) ?_), hs.keep (by simp) rfl⟩
        rintro ⟨hle, hlt, hpos⟩
        have hint : (i.toInt : ℤ) = i.toNat := toInt_eq_of_le hn (hle.trans hs.le)
        omega

/-- **One call.** -/
theorem step_ok (hs : Inv n h s) (hn : 0 ≤ n.toInt) {c : Call α w} (hc : Careful n h c) :
    CallOk n h s c (call true n s c).1 (call true n s c).2 ∧
      Inv n (h ++ [(c, (call true n s c).1)]) (call true n s c).2 := by
  cases c with
  | sub i => exact step_sub hs i
  | update i x => exact step_update hs hn i x hc
  | done => exact step_done hs

theorem inv_create (hcreate : create true maxLen n = .ok s) : Inv n ([] : History α w) s := by
  simp only [create] at hcreate
  split at hcreate
  · cases hcreate
  · cases hcreate
    exact ⟨by simp [entries], by simp [entries], by simp [entries], by simp [gotten], fun _ => rfl, by simp [gotten]⟩

/-- **The invariant of careful runs.** -/
theorem CarefulRun.inv {hist : History α w} (hn : 0 ≤ n.toInt) (h : CarefulRun true maxLen n hist s) : Inv n hist s := by
  induction h with
  | create hcreate => exact inv_create hcreate
  | call _ c hc ih => exact (step_ok ih hn hc).2

/-- **`create` is safe in careful runs**: it succeeds for every length, and where no call starts over on a returned
vector, every call does what it is for. -/
theorem run_kept (maxLen n : BitVec w) (hn : 0 ≤ n.toInt) (hle : n.toInt ≤ maxLen.toInt) :
    (∃ s : Creating α w, create true maxLen n = .ok s) ∧
      ∀ (h : History α w) (s : Creating α w), CarefulRun true maxLen n h s → ∀ c, Careful n h c →
        CallOk n h s c (call true n s c).1 (call true n s c).2 := by
  refine ⟨⟨⟨fun _ => none, 0, 0, false⟩, ?_⟩, fun h s hrun c hc => (step_ok (hrun.inv hn) hn hc).1⟩
  have hmax : n.toNat ≤ maxLen.toNat := by
    have h1 := toInt_eq_of_le hn le_rfl
    have h2 := toInt_eq_of_le (hn.trans hle) le_rfl
    omega
  rw [create, if_neg]
  simpa [geu] using hmax

/-! ## A vector of two entries -/

/-- The state after some calls. -/
def after (n : BitVec w) (s : Creating α w) (cs : List (Call α w)) : Creating α w :=
  cs.foldl (fun s c => (call true n s c).2) s

/-- The calls with their replies. -/
def history (n : BitVec w) (s : Creating α w) : List (Call α w) → History α w
  | [] => []
  | c :: cs => (c, (call true n s c).1) :: history n (call true n s c).2 cs

theorem run_history {n maxLen : BitVec w} : ∀ {h : History α w} {s : Creating α w} (cs : List (Call α w)),
    Run true maxLen n h s → Run true maxLen n (h ++ history n s cs) (after n s cs)
  | h, s, [], hr => by simpa [history, after] using hr
  | h, s, c :: cs, hr => by simpa [history, after] using run_history cs (hr.call c)

/-- Nothing has been called. -/
def created : Creating ℕ 32 := ⟨fun _ => none, 0, 0, false⟩

theorem run_kept_two : CallOk (2 : BitVec 32) [] created (.update 0 5) (call true 2 created (.update 0 5)).1
    (call true 2 created (.update 0 5)).2 :=
  (run_kept 2147483647 2 (by decide) (by decide)).2 [] created (.create rfl) _ fun h => by simp [gotten] at h

/-- After `done`, `update (0, 7)` writes to the vector, and its entry 1 can be read no more. -/
theorem run_overwrites : ∃ (h : History ℕ 32) (s : Creating ℕ 32), Run true 2147483647 2 h s ∧ gotten h ∧
    (call true 2 s (.sub 1)).1 = .value (some 6) ∧ s.a 0 = some 5 ∧
    (call true 2 (call true 2 s (.update 0 7)).2 (.sub 1)).1 = .raised .subscript ∧
    (call true 2 s (.update 0 7)).2.a 0 = some 7 := by
  have hnone : Run true 2147483647 2 [] created := .create rfl
  have hrun := run_history [.update 0 5, .update 1 6, .done] hnone
  refine ⟨_, _, hrun, ⟨.done, ?_⟩, rfl, rfl, rfl, rfl⟩
  exact .tail _ (.tail _ (.head _))

end MLton.Sequence
