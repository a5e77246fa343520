import MLton.Basis.FixedText

/-!
# Basis/FixedWordText — the word in front of a text is scanned, or raises

The prefix of a word is looked ahead for, and if no digit follows it, only its `0` is read.  A product that wraps does
not give the word back when it is divided, and a sum that wraps is below the product.
-/

namespace MLton.FixedWord

open IntInf FixedNum

/-! ## The grammar -/

/-- The prefixes of the words of a radix. -/
def prefixes (radix : Radix) : List (List Char) :=
  if radix = .hex then [['0', 'x'], ['0', 'X'], ['0', 'w', 'x'], ['0', 'w', 'X']] else [['0', 'w']]

/-- **The numerals of words**, with their values: no sign, and one or more digits after white space and a prefix, of
which only the digits must be there. -/
inductive Numeral (radix : Radix) : List Char → ℤ → Prop
  | mk {spaces pre ds : List Char} {digits : List ℕ} : (∀ c ∈ spaces, isSpace c = true) →
      pre ∈ [] :: prefixes radix → ds ≠ [] → ds.map radix.dig = digits.map some →
      Numeral radix (spaces ++ (pre ++ ds)) (valueOf radix.toNat digits : ℕ)

/-- The number after a prefix, or else the number in front. -/
def unsignedText (radix : Radix) (t : List Char) : Option (ℤ × List Char) :=
  ((prefixes radix).findSome? fun pre => if pre <+: t then numberText radix (t.drop pre.length) else none).or
    (numberText radix t)

/-- A word after white space. -/
def scanText (radix : Radix) (t : List Char) : Option (ℤ × List Char) := unsignedText radix (t.dropWhile isSpace)

section Grammar

variable {radix : Radix} {t rest : List Char}

/-- A prefix is a `0` and a letter. -/
theorem exists_letter {pre : List Char} (h : pre ∈ prefixes radix) :
    ∃ c cs, pre = '0' :: c :: cs ∧ radix.dig c = none := by
  cases radix <;> simp only [prefixes, reduceCtorEq, if_true, if_false, List.mem_cons, List.not_mem_nil, or_false] at h
  case hex => obtain rfl | rfl | rfl | rfl := h <;> exact ⟨_, _, rfl, by decide⟩
  all_goals exact ⟨'w', [], h, by decide⟩

/-- No prefix is in front of another. -/
theorem eq_of_isPrefix {pre pre' : List Char} (h : pre ∈ prefixes radix) (h' : pre' ∈ prefixes radix)
    (hpre : pre <+: pre' ++ t) : pre = pre' := by
  cases radix <;> simp only [prefixes, reduceCtorEq, if_true, if_false, List.mem_cons, List.not_mem_nil, or_false] at h h'
  case hex =>
    obtain rfl | rfl | rfl | rfl := h <;> obtain rfl | rfl | rfl | rfl := h' <;> simp_all
  all_goals exact h.trans h'.symm

theorem numberText_of_none {c : Char} (h : radix.dig c = none) (t : List Char) : numberText radix (c :: t) = none :=
  if_pos (by simp [leading, h])

theorem findSome_of_none (h : ∀ pre ∈ prefixes radix, pre <+: t → numberText radix (t.drop pre.length) = none) :
    unsignedText radix t = numberText radix t := by
  have hnone : ((prefixes radix).findSome? fun pre =>
      if pre <+: t then numberText radix (t.drop pre.length) else none) = none := by
    refine List.findSome?_eq_none_iff.mpr fun pre hmem => ?_
    split
    · next hpre => exact h pre hmem hpre
    · rfl
  rw [unsignedText, hnone, Option.none_or]

/-- **After a prefix** the number is read, or else the `0` of the prefix. -/
theorem unsignedText_marked {pre : List Char} (h : pre ∈ prefixes radix) (t : List Char) :
    unsignedText radix (pre ++ t) = (numberText radix t).or (some (0, pre.tail ++ t)) := by
  have hdrop : (pre ++ t).drop pre.length = t := List.drop_left
  cases hread : numberText radix t with
  | none =>
    obtain ⟨c, cs, rfl, hc⟩ := exists_letter h
    rw [findSome_of_none, List.cons_append, numberText_zero_cons, List.cons_append, numberText_of_none hc]
    · rfl
    · intro pre' hmem hpre
      rw [eq_of_isPrefix hmem h hpre, hdrop, hread]
  | some x =>
    have hself : (if pre <+: pre ++ t then numberText radix ((pre ++ t).drop pre.length) else none) = some x := by
      rw [if_pos (List.prefix_append pre t), hdrop, hread]
    rw [unsignedText]
    cases hfind : (prefixes radix).findSome? fun pre' =>
        if pre' <+: pre ++ t then numberText radix ((pre ++ t).drop pre'.length) else none with
    | none => cases (List.findSome?_eq_none_iff.mp hfind pre h).symm.trans hself
    | some y =>
      obtain ⟨pre', hmem, hy⟩ := List.exists_of_findSome?_eq_some hfind
      split at hy
      · next hpre =>
        rw [eq_of_isPrefix hmem h hpre, hdrop, hread] at hy
        rw [← hy]
        rfl
      · cases hy

/-- The hexadecimal prefixes that begin with `0w`. -/
theorem head_of_prefix {pre : List Char} (h : pre ∈ prefixes .hex) (hpre : pre <+: '0' :: 'w' :: t) :
    t.head? = some 'x' ∨ t.head? = some 'X' := by
  simp only [prefixes, if_true, List.mem_cons, List.not_mem_nil, or_false] at h
  obtain rfl | rfl | rfl | rfl := h
  · simp [List.cons_prefix_cons] at hpre
  · simp [List.cons_prefix_cons] at hpre
  · obtain ⟨t', ht⟩ := hpre
    exact .inl (by rw [← (List.cons.inj (List.cons.inj ht).2).2]; rfl)
  · obtain ⟨t', ht⟩ := hpre
    exact .inr (by rw [← (List.cons.inj (List.cons.inj ht).2).2]; rfl)

/-- A `0` that no letter of a prefix follows. -/
theorem unsignedText_zero (h : ∀ pre ∈ prefixes radix, ¬ pre <+: '0' :: t) :
    unsignedText radix ('0' :: t) = (numberText radix t).or (some (0, t)) := by
  rw [findSome_of_none fun pre hmem hpre => absurd hpre (h pre hmem), numberText_zero_cons]

/-- What is read is a prefix and digits. -/
theorem unsignedText_sound {n : ℤ} (h : unsignedText radix t = some (n, rest)) :
    ∃ pre ∈ [] :: prefixes radix, UnsignedOf radix pre t n rest := by
  rw [unsignedText, Option.or_eq_some_iff] at h
  obtain h | ⟨-, h⟩ := h
  · obtain ⟨pre, hmem, hpre⟩ := List.exists_of_findSome?_eq_some h
    split at hpre
    · next hletters =>
      obtain ⟨t', rfl⟩ := hletters
      rw [List.drop_left] at hpre
      obtain ⟨ds, digits, rfl, hds⟩ := numberText_sound hpre
      exact ⟨pre, List.mem_cons_of_mem _ hmem, ds, digits, rfl, hds⟩
    · cases hpre
  · exact ⟨[], List.mem_cons_self, numberText_sound h⟩

theorem scanText_sound {n : ℤ} (h : scanText radix t = some (n, rest)) : ∃ p, t = p ++ rest ∧ Numeral radix p n := by
  obtain ⟨pre, hpre, ds, digits, ht, hne, hds, rfl⟩ := unsignedText_sound h
  refine ⟨t.takeWhile isSpace ++ (pre ++ ds), ?_, .mk (List.all_eq_true.mp List.all_takeWhile) hpre hne hds⟩
  rw [List.append_assoc, List.append_assoc, ← ht, List.takeWhile_append_dropWhile]

/-- Digits that a prefix is in front of are its `0`. -/
theorem digits_of_prefix {pre ds : List Char} {digits : List ℕ} (hpre : pre ∈ prefixes radix)
    (hletters : pre <+: ds ++ rest) (hne : ds ≠ []) (hds : ds.map radix.dig = digits.map some) :
    ds = ['0'] ∧ pre.tail <+: rest := by
  obtain ⟨c, cs, rfl, hc⟩ := exists_letter hpre
  obtain ⟨t, ht⟩ := hletters
  match ds, digits, hds with
  | [c₀], _, _ =>
    obtain ⟨rfl, hrest⟩ := List.cons.inj ht
    exact ⟨rfl, t, hrest⟩
  | _ :: c' :: _, _ :: _ :: _, hds =>
    simp only [List.map_cons, List.cons.injEq] at hds
    obtain rfl : c = c' := (List.cons.inj (List.cons.inj ht).2).1
    rw [hc] at hds
    cases hds.2.1
  | _ :: _ :: _, [_], hds => simp at hds

theorem unsignedText_digits {pre ds : List Char} {digits : List ℕ} (rest : List Char) (hpre : pre ∈ [] :: prefixes radix)
    (hne : ds ≠ []) (hds : ds.map radix.dig = digits.map some) :
    ReadsPast (unsignedText radix (pre ++ (ds ++ rest))) (valueOf radix.toNat digits : ℕ) rest := by
  have hnumber := numberText_digits rest hne hds
  obtain rfl | hmem := List.mem_cons.mp hpre
  · rw [List.nil_append]
    by_cases hall : ∀ pre ∈ prefixes radix, pre <+: ds ++ rest →
        numberText radix ((ds ++ rest).drop pre.length) = none
    · rw [findSome_of_none hall]
      exact hnumber
    · -- a prefix is in front, and so more than its `0` is read
      push Not at hall
      obtain ⟨pre, hmem, hletters, hread⟩ := hall
      obtain ⟨rfl, t, ht⟩ := digits_of_prefix hmem hletters hne hds
      obtain ⟨c, cs, rfl, hc⟩ := exists_letter hmem
      rw [List.tail_cons] at ht
      have hwhole : ['0'] ++ rest = ('0' :: c :: cs) ++ t := by
        rw [← ht]
        rfl
      rw [hwhole, List.drop_left] at hread
      rw [hwhole, unsignedText_marked hmem]
      obtain ⟨⟨n, rest'⟩, hn⟩ := Option.ne_none_iff_exists'.mp hread
      obtain ⟨es, digits', hes, -⟩ := numberText_sound hn
      rw [List.nil_append] at hes
      refine ⟨n, c :: cs ++ es, rest', by rw [hn]; rfl, ?_, by simp⟩
      rw [← ht, hes, List.append_assoc]
  · obtain ⟨n, more, rest', hread, hrest, hmore⟩ := hnumber
    refine ⟨n, more, rest', ?_, hrest, hmore⟩
    rw [unsignedText_marked hmem, hread]
    rfl

/-- No digit and no prefix begins with white space. -/
theorem dropWhile_unsigned {pre ds : List Char} {digits : List ℕ} (rest : List Char) (hpre : pre ∈ [] :: prefixes radix)
    (hne : ds ≠ []) (hds : ds.map radix.dig = digits.map some) :
    (pre ++ (ds ++ rest)).dropWhile isSpace = pre ++ (ds ++ rest) := by
  obtain rfl | hmem := List.mem_cons.mp hpre
  · match ds, digits, hds with
    | c :: ds, _ :: _, hds =>
      simp only [List.map_cons, List.cons.injEq] at hds
      refine List.dropWhile_cons_of_neg fun hspace => ?_
      cases (dig_space hspace).symm.trans hds.1
  · obtain ⟨c, cs, rfl, -⟩ := exists_letter hmem
    exact List.dropWhile_cons_of_neg (by decide)

theorem scanText_numeral {p : List Char} {n : ℤ} (h : Numeral radix p n) (rest : List Char) :
    ReadsPast (scanText radix (p ++ rest)) n rest := by
  obtain @⟨spaces, pre, ds, digits, hspaces, hpre, hne, hds⟩ := h
  rw [List.append_assoc, List.append_assoc, scanText, List.dropWhile_append_of_pos hspaces,
    dropWhile_unsigned rest hpre hne hds]
  exact unsignedText_digits rest hpre hne hds

/-- What an unbounded reader reads is the longest numeral. -/
theorem longest_scanText : Longest (Numeral radix) (scanText radix) := ⟨scanText_sound, scanText_numeral⟩

/-- The letters of a prefix, after its `0`. -/
def prefixLetters (radix : Radix) : List Char := if radix = .hex then ['w', 'x', 'X'] else ['w']

theorem letter_mem {c : Char} {cs : List Char} (h : '0' :: c :: cs ∈ prefixes radix) : c ∈ prefixLetters radix := by
  cases radix <;> simp [prefixes] at h <;> simp [prefixLetters, h]
  obtain ⟨rfl, -⟩ | ⟨rfl, -⟩ | ⟨rfl, -⟩ | ⟨rfl, -⟩ := h <;> simp

/-- **The digits of a word are read back**, and what is after them is left. -/
theorem scanText_digitsText (radix : Radix) (n : ℕ) (hdigit : ∀ c ∈ rest.head?, radix.dig c = none)
    (hletters : n = 0 → ∀ c ∈ rest.head?, c ∉ prefixLetters radix) :
    scanText radix (digitsText radix n ++ rest) = some ((n : ℤ), rest) := by
  obtain ⟨digits, hds, hvalue, hne⟩ := map_digitsText radix n
  have hdrop : (digitsText radix n ++ rest).dropWhile isSpace = digitsText radix n ++ rest :=
    dropWhile_unsigned rest List.mem_cons_self hne hds
  rw [scanText, hdrop, findSome_of_none, numberText_digitsText radix n (leading_eq_nil_iff.mpr hdigit)]
  intro pre hmem hpre
  obtain ⟨hzero, hrest⟩ := digits_of_prefix hmem hpre hne hds
  obtain ⟨c, cs, rfl, -⟩ := exists_letter hmem
  have hn : n = 0 := by
    rw [hzero] at hds
    have hdig : radix.dig '0' = some 0 := by cases radix <;> decide
    obtain ⟨d, rfl⟩ : ∃ d, digits = [d] := List.length_eq_one_iff.mp (by simpa using (congrArg List.length hds).symm)
    obtain rfl : d = 0 := by simpa [hdig] using hds.symm
    rw [← hvalue]
    simp [valueOf]
  obtain ⟨t, ht⟩ := hrest
  exact absurd (letter_mem hmem) (hletters hn c (by rw [← ht]; rfl))

end Grammar

/-! ## The readers -/

section Scan

variable {w : Size} {radix : Radix} {α : Type} {size : α → ℕ} {reader : Reader size Char}

/-- From zero to `maxWord'`. -/
def InRange (w : Size) (n : ℤ) : Prop := 0 ≤ n ∧ n < 2 ^ w.bits

instance (n : ℤ) : Decidable (InRange w n) := inferInstanceAs (Decidable (_ ∧ _))

theorem inRange_natCast {n : ℕ} : InRange w (n : ℤ) ↔ n < 2 ^ w.bits := by
  rw [InRange]
  constructor
  · intro h
    exact_mod_cast h.2
  · intro h
    exact ⟨by omega, by exact_mod_cast h⟩

/-- **A number and its next digit**: a product that wraps is not divided back to the number, and a sum that wraps is
below the product. -/
theorem accumulate_eq (w : Size) {r m d : ℕ} (hr : 0 < r) (hd : d < 2 ^ w.bits) :
    accumulate w r m d = if m * r + d < 2 ^ w.bits then .ok (m * r + d) else .error .overflow := by
  have hdiv : div (mul w m r) r = .ok (mul w m r / r) := if_neg (by omega)
  rw [accumulate]
  simp only [hdiv, Except.bind]
  by_cases hproduct : m * r < 2 ^ w.bits
  · have hmul : mul w m r = m * r := Nat.mod_eq_of_lt hproduct
    rw [hmul, if_pos (Nat.mul_div_cancel m hr), fromInt, Nat.mod_eq_of_lt hd, add]
    by_cases hsum : m * r + d < 2 ^ w.bits
    · rw [Nat.mod_eq_of_lt hsum, if_pos (Nat.le_add_right _ _), if_pos hsum]
    · have hwrap : (m * r + d) % 2 ^ w.bits = m * r + d - 2 ^ w.bits := by
        rw [Nat.mod_eq_sub_mod (by omega), Nat.mod_eq_of_lt (by omega)]
      rw [hwrap, if_neg (by omega), if_neg hsum]
  · have hback : mul w m r / r ≠ m := by
      intro h
      have hle : m * r ≤ mul w m r :=
        calc m * r = mul w m r / r * r := by rw [h]
          _ ≤ mul w m r := Nat.div_mul_le_self _ r
      have hlt : mul w m r < 2 ^ w.bits := Nat.mod_lt _ (Nat.pow_pos (by norm_num))
      omega
    rw [if_neg hback, if_neg (by omega)]

/-- **The digits that follow**, and what is after them. -/
theorem answer_finishNum {s : α} {es : List ℕ} (h : valueOf radix.toNat es < 2 ^ w.bits) :
    answer Nat.cast reader.text (finishNum w radix reader radix.toNat s (valueOf radix.toNat es)) =
      within (InRange w) (some ((valueOf radix.toNat (es ++ leading radix.dig (reader.text s)) : ℕ),
        after radix.dig (reader.text s))) := by
  induction hn : size s using Nat.strongRec generalizing es s with
  | _ m ih =>
    rw [finishNum]
    split
    · next hread =>
      rw [Reader.text_of_none hread]
      simp only [leading, after, List.append_nil, within, if_pos (inRange_natCast.mpr h)]
      rw [← Reader.text_of_none hread]
      rfl
    · next c s' hread =>
      rw [Reader.text_of_some hread]
      cases hd : radix.dig c with
      | none =>
        simp only [leading, after, hd, List.append_nil, within, if_pos (inRange_natCast.mpr h)]
        rw [← Reader.text_of_some hread]
        rfl
      | some d =>
        have hlt := dig_lt c d hd
        have hbase := one_lt_toNat radix
        have hsmall : d < 2 ^ w.bits := (hlt.trans_le (toNat_le_sixteen radix)).trans (sixteen_lt w)
        have hsnoc : valueOf radix.toNat es * radix.toNat + d = valueOf radix.toNat (es ++ [d]) := by
          rw [valueOf_append]
          simp [valueOf]
        have happend : es ++ d :: leading radix.dig (reader.text s') =
            es ++ [d] ++ leading radix.dig (reader.text s') := by simp
        simp only [leading, after, hd]
        rw [accumulate_eq w (by omega) hsmall, hsnoc, happend]
        by_cases hin : valueOf radix.toNat (es ++ [d]) < 2 ^ w.bits
        · rw [if_pos hin]
          exact ih (size s') (hn ▸ reader.size_lt hread) hin rfl
        · have hle : valueOf radix.toNat (es ++ [d]) ≤
              valueOf radix.toNat (es ++ [d] ++ leading radix.dig (reader.text s')) := by
            have hpos : 0 < radix.toNat ^ (leading radix.dig (reader.text s')).length := Nat.pow_pos (by omega)
            rw [valueOf_append _ (leading radix.dig (reader.text s'))]
            exact (Nat.le_mul_of_pos_right _ hpos).trans (Nat.le_add_right _ _)
          have hout : ¬ InRange w
              ((valueOf radix.toNat (es ++ [d] ++ leading radix.dig (reader.text s')) : ℕ) : ℤ) := by
            rw [inRange_natCast]
            omega
          rw [if_neg hin, within, if_neg hout]
          rfl

theorem answer_startNumWith (c : Char) (s : α) :
    answer Nat.cast reader.text (startNumWith w radix reader radix.toNat c s) =
      within (InRange w) (numberText radix (c :: reader.text s)) := by
  rw [startNumWith]
  cases hd : radix.dig c with
  | none =>
    rw [numberText_of_none hd]
    rfl
  | some d =>
    have hsmall : d < 2 ^ w.bits := ((dig_lt c d hd).trans_le (toNat_le_sixteen radix)).trans (sixteen_lt w)
    have hvalue : d = valueOf radix.toNat [d] := by simp [valueOf]
    have hfinish := @answer_finishNum w radix α size reader s [d] (hvalue ▸ hsmall)
    rw [← hvalue] at hfinish
    have hnumber : numberText radix (c :: reader.text s) =
        some (((valueOf radix.toNat ([d] ++ leading radix.dig (reader.text s)) : ℕ) : ℤ),
          after radix.dig (reader.text s)) := by
      rw [numberText, if_neg (by simp [leading, hd])]
      simp [leading, after, hd]
    have hfrom : fromInt w d = d := Nat.mod_eq_of_lt hsmall
    simp only [hfrom]
    exact hfinish.trans (congrArg _ hnumber.symm)

theorem answer_startNum (s : α) : answer Nat.cast reader.text (startNum w radix reader radix.toNat s) =
    within (InRange w) (numberText radix (reader.text s)) := by
  rw [startNum]
  cases hread : reader.read s with
  | none =>
    rw [Reader.text_of_none hread]
    rfl
  | some x =>
    rw [Reader.text_of_some hread]
    exact answer_startNumWith x.1 x.2

/-- What is answered instead of no number. -/
theorem answer_orElse {r : Except Exn (Option (ℕ × α))} {x : Option (ℤ × List Char)}
    (h : answer Nat.cast reader.text r = within (InRange w) x) (s : α) :
    answer Nat.cast reader.text (orElse r (some (0, s))) = within (InRange w) (x.or (some (0, reader.text s))) := by
  have hzero : InRange w 0 := by
    have := inRange_natCast.mpr (Nat.pow_pos (n := w.bits) (show 0 < 2 by norm_num) : (0 : ℕ) < 2 ^ w.bits)
    exact_mod_cast this
  cases x with
  | none =>
    rw [answer_eq_none h, Option.none_or, within, if_pos hzero]
    rfl
  | some x =>
    obtain ⟨n, rest⟩ := x
    rw [Option.some_or]
    by_cases hin : InRange w n
    · obtain ⟨b, s', rfl, rfl, rfl⟩ := answer_eq_some (h.trans (if_pos hin))
      rw [within, if_pos hin]
      rfl
    · rw [answer_eq_error (h.trans (if_neg hin)), within, if_neg hin]
      rfl

/-- What is answered after a prefix. -/
theorem answer_marked {pre : List Char} (hmem : pre ∈ prefixes radix) {state1 s : α}
    (htext : reader.text state1 = pre.tail ++ reader.text s) :
    answer Nat.cast reader.text (startNumOr w radix reader radix.toNat s (some (0, state1))) =
      within (InRange w) (unsignedText radix ('0' :: reader.text state1)) := by
  have hwhole : '0' :: reader.text state1 = pre ++ reader.text s := by
    obtain ⟨c, cs, rfl, -⟩ := exists_letter hmem
    rw [htext]
    rfl
  rw [hwhole, unsignedText_marked hmem, ← htext]
  exact answer_orElse (answer_startNum s) state1

/-- What is answered to a `0` that no prefix and no digit is behind. -/
theorem answer_lone {state1 : α} (hno : ∀ pre ∈ prefixes radix, ¬ pre <+: '0' :: reader.text state1)
    (hnone : numberText radix (reader.text state1) = none) :
    answer Nat.cast reader.text (.ok (some (0, state1))) =
      within (InRange w) (unsignedText radix ('0' :: reader.text state1)) := by
  rw [unsignedText_zero hno, hnone]
  exact answer_orElse (r := .ok none) (x := none) rfl state1

/-- **`scan`** answers the word in front of a text, if it is in range. -/
theorem answer_scan (s : α) : answer Nat.cast reader.text (scan w radix reader s) =
    within (InRange w) (scanText radix (reader.text s)) := by
  rw [scan, scanText, ← text_skipWS, fromInt_toNat]
  generalize skipWS reader s = s
  cases hread : reader.read s with
  | none =>
    rw [Reader.text_of_none hread, findSome_of_none]
    · rfl
    · intro pre hmem hpre
      obtain ⟨c, cs, rfl, -⟩ := exists_letter hmem
      cases List.prefix_nil.mp hpre
  | some x =>
    obtain ⟨c, state1⟩ := x
    rw [Reader.text_of_some hread]
    dsimp only
    by_cases hzero : c = '0'
    · subst hzero
      rw [if_pos rfl]
      cases hread1 : reader.read state1 with
      | none =>
        refine answer_lone (fun pre hmem hpre => ?_) ?_
        · obtain ⟨c, cs, rfl, -⟩ := exists_letter hmem
          rw [Reader.text_of_none hread1] at hpre
          cases List.prefix_nil.mp (List.cons_prefix_cons.mp hpre).2
        · rw [Reader.text_of_none hread1]
          rfl
      | some x =>
        obtain ⟨c, state2⟩ := x
        have htext1 := Reader.text_of_some hread1
        -- a letter of no prefix of the radix
        have hlone : c ∉ prefixLetters radix → ∀ pre ∈ prefixes radix, ¬ pre <+: '0' :: reader.text state1 := by
          intro hc pre hmem hpre
          obtain ⟨c', cs, rfl, -⟩ := exists_letter hmem
          rw [htext1] at hpre
          have heq := (List.cons_prefix_cons.mp (List.cons_prefix_cons.mp hpre).2).1
          exact hc (heq ▸ letter_mem hmem)
        have hnone : radix.dig c = none → numberText radix (reader.text state1) = none := by
          intro hc
          rw [htext1]
          exact numberText_of_none hc _
        dsimp only
        by_cases hw : c = 'w'
        · subst hw
          rw [if_pos rfl]
          by_cases hhex : radix = .hex
          · subst hhex
            rw [if_pos rfl]
            cases hread2 : reader.read state2 with
            | none =>
              refine answer_lone (fun pre hmem hpre => ?_) (hnone (by decide))
              rw [htext1, Reader.text_of_none hread2] at hpre
              obtain h | h := head_of_prefix hmem hpre <;> cases h
            | some x =>
              obtain ⟨c, state3⟩ := x
              have htext2 := Reader.text_of_some hread2
              dsimp only
              by_cases hx : c = 'x'
              · subst hx
                rw [if_pos rfl]
                exact answer_marked (show ['0', 'w', 'x'] ∈ prefixes .hex by simp [prefixes]) (by rw [htext1, htext2]; rfl)
              by_cases hX : c = 'X'
              · subst hX
                rw [if_neg (by decide), if_pos rfl]
                exact answer_marked (show ['0', 'w', 'X'] ∈ prefixes .hex by simp [prefixes]) (by rw [htext1, htext2]; rfl)
              rw [if_neg hx, if_neg hX]
              refine answer_lone (fun pre hmem hpre => ?_) (hnone (by decide))
              rw [htext1, htext2] at hpre
              obtain h | h := head_of_prefix hmem hpre
              · exact hx (Option.some.inj h)
              · exact hX (Option.some.inj h)
          · rw [if_neg hhex]
            exact answer_marked (show ['0', 'w'] ∈ prefixes radix by simp [prefixes, hhex]) (by rw [htext1]; rfl)
        by_cases hx : c = 'x'
        · subst hx
          rw [if_neg hw, if_pos rfl]
          by_cases hhex : radix = .hex
          · rw [if_pos hhex]
            exact answer_marked (show ['0', 'x'] ∈ prefixes radix by simp [prefixes, hhex]) (by rw [htext1]; rfl)
          · rw [if_neg hhex]
            exact answer_lone (hlone (by simp [prefixLetters, hhex])) (hnone (dig_sign (by simp)))
        by_cases hX : c = 'X'
        · subst hX
          rw [if_neg hw, if_neg hx, if_pos rfl]
          by_cases hhex : radix = .hex
          · rw [if_pos hhex]
            exact answer_marked (show ['0', 'X'] ∈ prefixes radix by simp [prefixes, hhex]) (by rw [htext1]; rfl)
          · rw [if_neg hhex]
            exact answer_lone (hlone (by simp [prefixLetters, hhex])) (hnone (dig_sign (by simp)))
        rw [if_neg hw, if_neg hx, if_neg hX, unsignedText_zero (hlone ?_)]
        · have horElse : answer Nat.cast reader.text (startNumWithOr w radix reader radix.toNat c state2 (some (0, state1))) =
              within (InRange w) ((numberText radix (c :: reader.text state2)).or (some (0, reader.text state1))) :=
            answer_orElse (answer_startNumWith c state2) state1
          rw [horElse, htext1]
        · unfold prefixLetters
          split <;> simp [hw, hx, hX]
    · rw [if_neg hzero, findSome_of_none]
      · exact answer_startNumWith c state1
      · intro pre hmem hpre
        obtain ⟨c', cs, rfl, -⟩ := exists_letter hmem
        exact absurd (List.cons_prefix_cons.mp hpre).1.symm hzero

/-- **The longest numeral in front of a text is scanned.** -/
theorem scans (s : α) :
    Scans (Numeral radix) (InRange w) (reader.text s) (answer Nat.cast reader.text (scan w radix reader s)) := by
  rw [answer_scan]
  exact longest_scanText.scans _

/-- **The text of a word is scanned back**, and what is after it is left. -/
theorem scan_fmt {n : ℕ} (h : n < 2 ^ w.bits) {s : α} {rest : List Char}
    (htext : reader.text s = digitsText radix n ++ rest) (hdigit : ∀ c ∈ rest.head?, radix.dig c = none)
    (hletters : n = 0 → ∀ c ∈ rest.head?, c ∉ prefixLetters radix) :
    ∃ s', scan w radix reader s = .ok (some (n, s')) ∧ reader.text s' = rest := by
  have hanswer : answer Nat.cast reader.text (scan w radix reader s) = .ok (some ((n : ℤ), rest)) := by
    rw [answer_scan, htext, scanText_digitsText radix n hdigit hletters]
    exact if_pos (inRange_natCast.mpr h)
  obtain ⟨n', s', hscan, hn, hrest⟩ := answer_eq_some hanswer
  obtain rfl : n' = n := Int.ofNat_inj.mp hn
  exact ⟨s', hscan, hrest⟩

end Scan

end MLton.FixedWord

/-! ## Integers and words -/

namespace MLton.FixedNum

open IntInf

/-- **The conversion of fixed-size integers and words to text and back is exact.**  Neither `fmt` raises, whatever is in
its buffer, and what it writes is scanned back in front of a text that does not begin with a digit of the radix nor, after
a `0` alone, with the letter of a prefix; either `scan` reads the longest numeral in front of a text, if its number is of
the size, and raises if it is not. -/
theorem text_exact (w : Size) (radix : Radix) {α : Type} {size : α → ℕ} (reader : Reader size Char) (s : α) :
    (∀ n, FixedInt.InRange w n → ∀ buf, ∃ str, FixedInt.fmt w radix n buf = .ok str ∧
      ∀ rest, reader.text s = str ++ rest → (∀ c ∈ rest.head?, radix.dig c = none) →
        (n = 0 → ∀ c ∈ rest.head?, c ∉ FixedInt.prefixLetters radix) →
        ∃ s', FixedInt.scan w radix reader s = .ok (some (n, s')) ∧ reader.text s' = rest) ∧
    (∀ n < 2 ^ w.bits, ∀ buf, ∃ str, FixedWord.fmt w radix n buf = .ok str ∧
      ∀ rest, reader.text s = str ++ rest → (∀ c ∈ rest.head?, radix.dig c = none) →
        (n = 0 → ∀ c ∈ rest.head?, c ∉ FixedWord.prefixLetters radix) →
        ∃ s', FixedWord.scan w radix reader s = .ok (some (n, s')) ∧ reader.text s' = rest) ∧
    Scans (IntInf.Numeral radix) (FixedInt.InRange w) (reader.text s)
      (answer id reader.text (FixedInt.scan w radix reader s)) ∧
    Scans (FixedWord.Numeral radix) (FixedWord.InRange w) (reader.text s)
      (answer Nat.cast reader.text (FixedWord.scan w radix reader s)) :=
  ⟨fun _ h buf => ⟨_, FixedInt.fmt_eq h radix buf, fun _ htext => FixedInt.scan_fmt h htext⟩,
    fun _ h buf => ⟨_, FixedWord.fmt_eq h radix buf, fun _ htext => FixedWord.scan_fmt h htext⟩,
    FixedInt.scans s, FixedWord.scans s⟩

/-- `minInt` of eight bits is scanned back in front of a space. -/
theorem text_exact_minInt : ∃ str s', FixedInt.fmt .bits8 .dec (-128) (Vector.replicate 9 '0') = .ok str ∧
    FixedInt.scan .bits8 .dec listReader (str ++ [' ']) = .ok (some (-128, s')) ∧ listReader.text s' = [' '] := by
  have hmin : FixedInt.InRange .bits8 (-128) := by decide
  obtain ⟨str, hfmt, -⟩ := (text_exact .bits8 .dec listReader []).1 (-128) hmin (Vector.replicate 9 '0')
  obtain ⟨str', hfmt', hscan⟩ :=
    (text_exact .bits8 .dec listReader (str ++ [' '])).1 (-128) hmin (Vector.replicate 9 '0')
  obtain rfl : str = str' := Except.ok.inj (hfmt.symm.trans hfmt')
  obtain ⟨s', hs', htext⟩ := hscan [' '] (text_listReader _) (fun c hc => by cases hc; rfl) (by decide)
  exact ⟨str, s', hfmt, hs', htext⟩

end MLton.FixedNum
