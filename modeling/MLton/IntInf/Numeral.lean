import MLton.IntInf.ScanText

/-!
# IntInf/Numeral — the grammar of integers, and the longest numeral in front of a text

A numeral is white space, a sign, the prefix of the hexadecimal ones, and one or more digits, of which only
the digits must be there.  `scan` reads the longest numeral in front of the text (`scan_grammar`); after a
`0x` without digits that is the `0`.
-/

namespace MLton.IntInf

variable {radix : Radix}

/-! ## The grammar -/

/-- **The numerals of a radix**, with their values. -/
inductive Numeral (radix : Radix) : List Char → ℤ → Prop
  | mk {spaces sgn pre ds : List Char} {digits : List ℕ} : (∀ c ∈ spaces, isSpace c = true) →
      sgn ∈ [[], ['+'], ['-'], ['~']] →
      (pre = [] ∨ radix = .hex ∧ pre ∈ [['0', 'x'], ['0', 'X']]) →
      ds ≠ [] → ds.map radix.dig = digits.map some →
      Numeral radix (spaces ++ (sgn ++ (pre ++ ds)))
        (if sgn ∈ [['-'], ['~']] then -(valueOf radix.toNat digits : ℕ) else (valueOf radix.toNat digits : ℕ))

/-! ## Digits in front of a text -/

section Digits

variable {dig : Char → Option ℕ}

theorem leading_append : ∀ {ds : List Char} {digits : List ℕ} (t : List Char), ds.map dig = digits.map some →
    leading dig (ds ++ t) = digits ++ leading dig t ∧ after dig (ds ++ t) = after dig t
  | [], [], _, _ => ⟨rfl, rfl⟩
  | c :: ds, d :: digits, t, h => by
    simp only [List.map_cons, List.cons.injEq] at h
    obtain ⟨hleading, hafter⟩ := leading_append t h.2
    simp [leading, after, h.1, hleading, hafter]

/-- A text is its digits and what is after them. -/
theorem exists_leading (dig : Char → Option ℕ) :
    ∀ t : List Char, ∃ ds, t = ds ++ after dig t ∧ ds.map dig = (leading dig t).map some
  | [] => ⟨[], rfl, rfl⟩
  | c :: t => by
    cases hd : dig c with
    | none => exact ⟨[], by simp [after, hd], by simp [leading, hd]⟩
    | some d =>
      obtain ⟨ds, ht, hds⟩ := exists_leading dig t
      refine ⟨c :: ds, ?_, by simp [leading, hd, hds]⟩
      simp only [after, hd, List.cons_append]
      rw [← ht]

end Digits

/-! ## What is read is a numeral -/

section Sound

variable {t rest : List Char} {n : ℤ}

/-- Digits in front of a text, after the prefix of a hexadecimal numeral. -/
def UnsignedOf (radix : Radix) (pre t : List Char) (n : ℤ) (rest : List Char) : Prop :=
  ∃ ds digits, t = pre ++ (ds ++ rest) ∧ ds ≠ [] ∧ ds.map radix.dig = List.map some digits ∧
    n = (valueOf radix.toNat digits : ℕ)

theorem numberText_sound (h : numberText radix t = some (n, rest)) : UnsignedOf radix [] t n rest := by
  simp only [numberText, Option.ite_none_left_eq_some, Option.some.injEq, Prod.mk.injEq] at h
  obtain ⟨hne, rfl, rfl⟩ := h
  obtain ⟨ds, ht, hds⟩ := exists_leading radix.dig t
  refine ⟨ds, leading radix.dig t, ht, ?_, hds, rfl⟩
  rintro rfl
  exact hne (List.map_eq_nil_iff.mp hds.symm)

theorem hexText_sound (h : hexText t = some (n, rest)) :
    ∃ pre ∈ [[], ['0', 'x'], ['0', 'X']], UnsignedOf .hex pre t n rest := by
  rw [hexText.eq_def] at h
  split at h
  next c t =>
    split at h
    next hx =>
      obtain ⟨ds, digits, rfl, hds⟩ := numberText_sound h
      refine ⟨['0', c], ?_, ds, digits, rfl, hds⟩
      obtain rfl | rfl := hx.1 <;> simp
    next => exact ⟨[], by simp, numberText_sound h⟩
  next => exact ⟨[], by simp, numberText_sound h⟩

theorem unsignedText_sound (h : unsignedText radix t = some (n, rest)) :
    ∃ pre, (pre = [] ∨ radix = .hex ∧ pre ∈ [['0', 'x'], ['0', 'X']]) ∧ UnsignedOf radix pre t n rest := by
  cases radix with
  | hex =>
    obtain ⟨pre, hpre, hun⟩ := hexText_sound h
    exact ⟨pre, by simpa using hpre, hun⟩
  | bin => exact ⟨[], .inl rfl, numberText_sound h⟩
  | oct => exact ⟨[], .inl rfl, numberText_sound h⟩
  | dec => exact ⟨[], .inl rfl, numberText_sound h⟩

theorem signText_sound (t : List Char) : ∃ sgn ∈ [[], ['+'], ['-'], ['~']], t = sgn ++ (signText t).2 ∧
    ((signText t).1 = true ↔ sgn ∈ [['-'], ['~']]) := by
  rw [signText.eq_def]
  split
  · exact ⟨['+'], by simp, rfl, by simp⟩
  · exact ⟨['-'], by simp, rfl, by simp⟩
  · exact ⟨['~'], by simp, rfl, by simp⟩
  · exact ⟨[], by simp, rfl, by simp⟩

/-- **What is read is a numeral** in front of the text. -/
theorem scanText_sound {i : ℤ} (h : scanText radix t = some (i, rest)) :
    ∃ p, t = p ++ rest ∧ Numeral radix p i := by
  obtain ⟨sgn, hsgn, hsplit, hneg⟩ := signText_sound (t.dropWhile isSpace)
  simp only [scanText, Option.map_eq_some_iff, Prod.mk.injEq] at h
  obtain ⟨⟨n, rest'⟩, huns, rfl, rfl⟩ := h
  obtain ⟨pre, hpre, ds, digits, ht, hne, hds, rfl⟩ := unsignedText_sound huns
  refine ⟨t.takeWhile isSpace ++ (sgn ++ (pre ++ ds)), ?_, ?_⟩
  · rw [List.append_assoc, List.append_assoc, List.append_assoc, ← ht, ← hsplit,
      List.takeWhile_append_dropWhile]
  · simp only [hneg]
    exact .mk (List.all_eq_true.mp List.all_takeWhile) hsgn hpre hne hds

end Sound

/-! ## A numeral in front of a text is read -/

section Complete

variable {ds : List Char} {digits : List ℕ}

/-- What a reader makes of a text that a numeral of value `j` is in front of: it reads no less, and `j` if it
reads no more. -/
def ReadsPast (answer : Option (ℤ × List Char)) (j : ℤ) (rest : List Char) : Prop :=
  ∃ i more rest', answer = some (i, rest') ∧ rest = more ++ rest' ∧ (more = [] → i = j)

theorem numberText_digits (rest : List Char) (hne : ds ≠ []) (hds : ds.map radix.dig = digits.map some) :
    ReadsPast (numberText radix (ds ++ rest)) (valueOf radix.toNat digits : ℕ) rest := by
  obtain ⟨hleading, hafter⟩ := leading_append rest hds
  obtain ⟨more, hmore, hmap⟩ := exists_leading radix.dig rest
  have hne' : digits ++ leading radix.dig rest ≠ [] := by
    intro h0
    rw [(List.append_eq_nil_iff.mp h0).1] at hds
    exact hne (List.map_eq_nil_iff.mp hds)
  refine ⟨(valueOf radix.toNat (digits ++ leading radix.dig rest) : ℕ), more, after radix.dig rest, ?_, hmore, ?_⟩
  · rw [numberText, hleading, hafter, if_neg hne']
  · rintro rfl
    rw [List.map_nil, eq_comm, List.map_eq_nil_iff] at hmap
    rw [hmap, List.append_nil]

theorem leading_ne_nil (rest : List Char) (hne : ds ≠ []) (hds : ds.map radix.dig = digits.map some) :
    leading radix.dig (ds ++ rest) ≠ [] := by
  intro h0
  rw [(leading_append rest hds).1, List.append_eq_nil_iff] at h0
  rw [h0.1] at hds
  exact hne (List.map_eq_nil_iff.mp hds)

/-- Digits are read as a number, but a `0` in front of an `x` and a digit. -/
theorem hexText_cases (rest : List Char) (hne : ds ≠ []) (hds : ds.map Radix.hex.dig = digits.map some) :
    hexText (ds ++ rest) = numberText .hex (ds ++ rest) ∨
      ∃ c t, ds = ['0'] ∧ rest = c :: t ∧ (c = 'x' ∨ c = 'X') ∧ leading Radix.hex.dig t ≠ [] ∧
        hexText (ds ++ rest) = numberText .hex t := by
  rw [hexText.eq_def]
  split
  next c t heq =>
    split
    next hx =>
      have hdig : Radix.hex.dig c = none := dig_sign (by obtain rfl | rfl := hx.1 <;> simp)
      obtain ⟨hzero, hrest⟩ : ds = ['0'] ∧ rest = c :: t := by
        match ds, digits, hds with
        | [c₀], _, _ =>
          obtain ⟨rfl, hrest⟩ := List.cons.inj heq
          exact ⟨rfl, hrest⟩
        | _ :: c' :: _, _ :: _ :: _, hds =>
          simp only [List.map_cons, List.cons.injEq] at hds
          obtain rfl : c' = c := (List.cons.inj (List.cons.inj heq).2).1
          rw [hdig] at hds
          cases hds.2.1
        | _ :: _ :: _, [_], hds => simp at hds
      exact .inr ⟨c, t, hzero, hrest, hx.1, hx.2, rfl⟩
    next => exact .inl (by rw [heq])
  next => exact .inl rfl

theorem hexText_digits (rest : List Char) (hne : ds ≠ []) (hds : ds.map Radix.hex.dig = digits.map some) :
    ReadsPast (hexText (ds ++ rest)) (valueOf Radix.hex.toNat digits : ℕ) rest := by
  obtain heq | ⟨c, t, -, hrest, -, ht, heq⟩ := hexText_cases rest hne hds
  · rw [heq]
    exact numberText_digits rest hne hds
  · obtain ⟨more, hmore, -⟩ := exists_leading Radix.hex.dig t
    refine ⟨(valueOf Radix.hex.toNat (leading Radix.hex.dig t) : ℕ), c :: more, after Radix.hex.dig t,
      ?_, ?_, by simp⟩
    · rw [heq, numberText, if_neg ht]
    · rw [hrest, List.cons_append, ← hmore]

theorem unsignedText_digits {pre : List Char} (rest : List Char)
    (hpre : pre = [] ∨ radix = .hex ∧ pre ∈ [['0', 'x'], ['0', 'X']]) (hne : ds ≠ [])
    (hds : ds.map radix.dig = digits.map some) :
    ReadsPast (unsignedText radix (pre ++ (ds ++ rest))) (valueOf radix.toNat digits : ℕ) rest := by
  have hnum := numberText_digits rest hne hds
  obtain rfl | ⟨rfl, hpre⟩ := hpre
  · cases radix with
    | hex => exact hexText_digits rest hne hds
    | bin => exact hnum
    | oct => exact hnum
    | dec => exact hnum
  · have hleading := leading_ne_nil rest hne hds
    simp only [List.mem_cons, List.not_mem_nil, or_false] at hpre
    obtain rfl | rfl := hpre
    · simpa [unsignedText, hexText, hleading] using hnum
    · simpa [unsignedText, hexText, hleading] using hnum

/-- The digits and the prefix of a numeral begin with a digit. -/
theorem exists_digit {pre : List Char} (rest : List Char)
    (hpre : pre = [] ∨ radix = .hex ∧ pre ∈ [['0', 'x'], ['0', 'X']]) (hne : ds ≠ [])
    (hds : ds.map radix.dig = digits.map some) :
    ∃ c t, pre ++ (ds ++ rest) = c :: t ∧ radix.dig c ≠ none := by
  obtain rfl | ⟨rfl, hpre⟩ := hpre
  · match ds, digits, hds with
    | c :: ds, _ :: _, hds =>
      simp only [List.map_cons, List.cons.injEq] at hds
      exact ⟨c, ds ++ rest, rfl, by simp [hds.1]⟩
  · simp only [List.mem_cons, List.not_mem_nil, or_false] at hpre
    obtain rfl | rfl := hpre
    · exact ⟨'0', 'x' :: (ds ++ rest), rfl, by decide⟩
    · exact ⟨'0', 'X' :: (ds ++ rest), rfl, by decide⟩

theorem signText_append {sgn : List Char} {c : Char} (t : List Char) (hsgn : sgn ∈ [[], ['+'], ['-'], ['~']])
    (hc : radix.dig c ≠ none) :
    signText (sgn ++ c :: t) = (decide (sgn ∈ [['-'], ['~']]), c :: t) := by
  simp only [List.mem_cons, List.not_mem_nil, or_false] at hsgn
  obtain rfl | rfl | rfl | rfl := hsgn
  · rw [List.nil_append, signText_cons, if_neg, if_neg, if_neg]
    · simp
    · rintro rfl
      exact hc (dig_sign (by simp))
    · rintro rfl
      exact hc (dig_sign (by simp))
    · rintro rfl
      exact hc (dig_sign (by simp))
  · simp [signText]
  · simp [signText]
  · simp [signText]

/-- No sign and no digit is white space. -/
theorem not_isSpace {sgn : List Char} {c c' : Char} {t t' : List Char}
    (hsgn : sgn ∈ [[], ['+'], ['-'], ['~']]) (hc : radix.dig c ≠ none) (h : sgn ++ c :: t = c' :: t') :
    isSpace c' = false := by
  simp only [List.mem_cons, List.not_mem_nil, or_false] at hsgn
  obtain rfl | rfl | rfl | rfl := hsgn
  · obtain ⟨rfl, -⟩ := List.cons.inj h
    exact Bool.eq_false_iff.mpr fun hspace => hc (dig_space hspace)
  · obtain ⟨rfl, -⟩ := List.cons.inj h
    decide
  · obtain ⟨rfl, -⟩ := List.cons.inj h
    decide
  · obtain ⟨rfl, -⟩ := List.cons.inj h
    decide

/-- What is read after white space and a sign. -/
theorem scanText_signed {spaces sgn : List Char} {c : Char} (t : List Char)
    (hspaces : ∀ c ∈ spaces, isSpace c = true) (hsgn : sgn ∈ [[], ['+'], ['-'], ['~']])
    (hc : radix.dig c ≠ none) :
    scanText radix (spaces ++ (sgn ++ c :: t)) = (unsignedText radix (c :: t)).map fun x =>
      (if sgn ∈ [['-'], ['~']] then -x.1 else x.1, x.2) := by
  have hdrop : (spaces ++ (sgn ++ c :: t)).dropWhile isSpace = sgn ++ c :: t := by
    rw [List.dropWhile_append_of_pos hspaces]
    cases hhead : sgn ++ c :: t with
    | nil => rfl
    | cons c' t' => exact List.dropWhile_cons_of_neg (by simp [not_isSpace hsgn hc hhead])
  rw [scanText, hdrop, signText_append t hsgn hc]
  simp

/-- **A numeral in front of a text is read**, or a longer one. -/
theorem scanText_numeral {p : List Char} {j : ℤ} (h : Numeral radix p j) (rest : List Char) :
    ReadsPast (scanText radix (p ++ rest)) j rest := by
  obtain @⟨spaces, sgn, pre, ds, digits, hspaces, hsgn, hpre, hne, hds⟩ := h
  obtain ⟨c, t, hct, hc⟩ := exists_digit rest hpre hne hds
  obtain ⟨i, more, rest', hread, hrest, hmore⟩ := unsignedText_digits rest hpre hne hds
  rw [hct] at hread
  refine ⟨if sgn ∈ [['-'], ['~']] then -i else i, more, rest', ?_, hrest, ?_⟩
  · rw [List.append_assoc, List.append_assoc, List.append_assoc, hct, scanText_signed t hspaces hsgn hc, hread]
    rfl
  · intro h0
    rw [hmore h0]

end Complete

/-! ## The longest numeral -/

/-- **The grammar of `scan`**: nothing is read if no numeral is in front of the text, and otherwise the
longest one is. -/
theorem scan_grammar {α : Type} {size : α → ℕ} (w : Widths) (radix : Radix) (cread : Reader size Char)
    (s : α) :
    match (scan w radix cread).read s with
    | none => ∀ p rest i, cread.text s = p ++ rest → ¬ Numeral radix p i
    | some (i, s') => ∃ p, cread.text s = p ++ cread.text s' ∧ Numeral radix p i ∧
        ∀ p' rest j, cread.text s = p' ++ rest → Numeral radix p' j → p'.length ≤ p.length := by
  have hreads : cread.Reads (scan w radix cread) (scanText radix) := reads_scan
  have hscan := hreads s
  cases hread : (scan w radix cread).read s with
  | none =>
    intro p rest i htext hp
    obtain ⟨i', more, rest', heq, -⟩ := scanText_numeral hp rest
    rw [← htext, ← hscan, hread] at heq
    cases heq
  | some x =>
    obtain ⟨i, s'⟩ := x
    rw [hread] at hscan
    obtain ⟨p, htext, hp⟩ := scanText_sound hscan.symm
    refine ⟨p, htext, hp, fun p' rest j htext' hp' => ?_⟩
    obtain ⟨i', more, rest', heq, hrest, -⟩ := scanText_numeral hp' rest
    rw [← htext', ← hscan] at heq
    simp only [Option.map_some, Option.some.injEq, Prod.map_apply, id_eq, Prod.mk.injEq] at heq
    have hlength := congrArg List.length (htext.symm.trans htext')
    rw [hrest, ← heq.2] at hlength
    simp only [List.length_append] at hlength
    omega

end MLton.IntInf
