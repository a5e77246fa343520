import MLton.Basis.FixedFormat

/-!
# Basis/FixedText — the numeral in front of a text is scanned, or raises

What `scan` answers is a function of the text: the number that an unbounded reader reads, if it is one of the size, and
otherwise the exception.  The digits read so far bound the number from below, and so an operation raises exactly if the
whole number does not fit.  What the unbounded reader reads is the longest numeral of the grammar (`Longest.reads`).
-/

namespace MLton

open IntInf FixedNum

/-! ## Answers -/

namespace FixedNum

/-- What a reader answers, with the text that is left. -/
def answer {α β : Type} (number : β → ℤ) (text : α → List Char) (r : Except Exn (Option (β × α))) :
    Except Exn (Option (ℤ × List Char)) :=
  r.map (Option.map (Prod.map number text))

/-- A number of a range, or else the exception. -/
def within (InRange : ℤ → Prop) [DecidablePred InRange] : Option (ℤ × List Char) → Except Exn (Option (ℤ × List Char))
  | none => .ok none
  | some (n, rest) => if InRange n then .ok (some (n, rest)) else .error .overflow

/-- **Scanning**: the answer to a text is the longest numeral in front of it, if its number is of the range, and the
exception if it is not; there is no number if there is no numeral. -/
def Scans (Numeral : List Char → ℤ → Prop) (InRange : ℤ → Prop) (t : List Char)
    (r : Except Exn (Option (ℤ × List Char))) : Prop :=
  ((∀ p rest n, t = p ++ rest → ¬ Numeral p n) ∧ r = .ok none) ∨
    ∃ p rest n, t = p ++ rest ∧ Numeral p n ∧
      (∀ p' rest' n', t = p' ++ rest' → Numeral p' n' → p'.length ≤ p.length) ∧
      (InRange n → r = .ok (some (n, rest))) ∧ (¬ InRange n → r = .error .overflow)

/-- A reader of texts that reads a numeral in front of a text, or a longer one. -/
structure Longest (Numeral : List Char → ℤ → Prop) (read : List Char → Option (ℤ × List Char)) : Prop where
  sound : ∀ {t n rest}, read t = some (n, rest) → ∃ p, t = p ++ rest ∧ Numeral p n
  numeral : ∀ {p n}, Numeral p n → ∀ rest, ReadsPast (read (p ++ rest)) n rest

section Answers

variable {α β : Type} {number : β → ℤ} {text : α → List Char} {r : Except Exn (Option (β × α))}

theorem answer_eq_some {n : ℤ} {rest : List Char} (h : answer number text r = .ok (some (n, rest))) :
    ∃ b s, r = .ok (some (b, s)) ∧ number b = n ∧ text s = rest := by
  match r, h with
  | .ok (some (b, s)), h =>
    simp only [answer, Except.map, Option.map_some, Except.ok.injEq, Option.some.injEq, Prod.map_apply,
      Prod.mk.injEq] at h
    exact ⟨b, s, rfl, h⟩

theorem answer_eq_none (h : answer number text r = .ok none) : r = .ok none := by
  match r, h with
  | .ok none, _ => rfl

theorem answer_eq_error {e : Exn} (h : answer number text r = .error e) : r = .error e := by
  match r, h with
  | .error _, h => exact congrArg Except.error (Except.error.inj h)

end Answers

variable {Numeral : List Char → ℤ → Prop} {InRange : ℤ → Prop} [DecidablePred InRange]
  {read : List Char → Option (ℤ × List Char)}

/-- **The longest numeral is read.** -/
theorem Longest.scans (h : Longest Numeral read) (t : List Char) : Scans Numeral InRange t (within InRange (read t)) := by
  cases hread : read t with
  | none =>
    refine .inl ⟨fun p rest n ht hp => ?_, rfl⟩
    obtain ⟨n', more, rest', heq, -⟩ := h.numeral hp rest
    rw [← ht, hread] at heq
    cases heq
  | some x =>
    obtain ⟨n, rest⟩ := x
    obtain ⟨p, ht, hp⟩ := h.sound hread
    refine .inr ⟨p, rest, n, ht, hp, fun p' rest' n' ht' hp' => ?_, fun hin => if_pos hin, fun hout => if_neg hout⟩
    obtain ⟨n'', more, rest'', heq, hrest, -⟩ := h.numeral hp' rest'
    rw [← ht', hread, Option.some.injEq, Prod.mk.injEq] at heq
    have hlength := congrArg List.length (ht.symm.trans ht')
    rw [hrest, ← heq.2] at hlength
    simp only [List.length_append] at hlength
    omega

/-- A `0` in front of a text is read, if nothing else is. -/
theorem numberText_zero_cons (radix : Radix) (t : List Char) :
    numberText radix ('0' :: t) = (numberText radix t).or (some (0, t)) := by
  have hzero : radix.dig '0' = some 0 := by cases radix <;> decide
  have hvalue : valueOf radix.toNat (0 :: leading radix.dig t) = valueOf radix.toNat (leading radix.dig t) := by
    rw [valueOf_cons, Nat.zero_mul, Nat.zero_add]
  rw [numberText, numberText]
  simp only [leading, after, hzero, hvalue]
  rw [if_neg (by simp)]
  split
  · next hnil =>
    rw [hnil, after_of_leading_nil hnil]
    rfl
  · rfl

end FixedNum

/-! ## Integers -/

namespace FixedInt

section Scan

variable {w : Size} {radix : Radix} {α : Type} {size : α → ℕ} {reader : Reader size Char}

theorem inRange_neg {n : ℕ} : InRange w (-(n : ℤ)) ↔ (n : ℤ) ≤ 2 ^ (w.bits - 1) := by
  have := sixteen_lt w
  rw [InRange]
  omega

/-- **A number and its next digit**: the product overflows only if the sum does. -/
theorem accumulate_eq (r m d : ℕ) : accumulate w r (-(m : ℤ)) d = checked w (-((m * r + d : ℕ) : ℤ)) := by
  have hmul : -(m : ℤ) * r = -((m * r : ℕ) : ℤ) := by
    push_cast
    ring
  have hsub : -((m * r : ℕ) : ℤ) - d = -((m * r + d : ℕ) : ℤ) := by
    push_cast
    ring
  rw [accumulate, mul, hmul]
  by_cases h : InRange w (-((m * r : ℕ) : ℤ))
  · rw [checked_of_inRange h]
    simp only [Except.bind]
    rw [sub, hsub]
  · have hnot : ¬ InRange w (-((m * r + d : ℕ) : ℤ)) := by
      rw [inRange_neg] at h ⊢
      push_cast at h ⊢
      omega
    rw [checked, if_neg h, checked, if_neg hnot]
    rfl

theorem charToDigit_eq (w : Size) (radix : Radix) (c : Char) :
    charToDigit w radix c = .ok ((radix.dig c).map Nat.cast) := by
  rw [charToDigit]
  cases h : radix.dig c with
  | none => rfl
  | some d =>
    have hlt := dig_lt c d h
    have hle := toNat_le_sixteen radix
    have hw := sixteen_lt w
    have hfrom : fromInt w d = .ok (d : ℤ) := checked_of_inRange ⟨by omega, by omega⟩
    simp only [hfrom, Except.map, Option.map]

/-- **The digits that follow**, and what is after them. -/
theorem answer_finishNum {s : α} {es : List ℕ} (h : InRange w (-(valueOf radix.toNat es : ℕ))) :
    answer id reader.text (finishNum w radix reader radix.toNat s (-(valueOf radix.toNat es : ℕ))) =
      within (InRange w) (some (-(valueOf radix.toNat (es ++ leading radix.dig (reader.text s)) : ℕ),
        after radix.dig (reader.text s))) := by
  induction hn : size s using Nat.strongRec generalizing es s with
  | _ m ih =>
    rw [finishNum]
    split
    · next hread =>
      rw [Reader.text_of_none hread]
      simp only [leading, after, List.append_nil, within, if_pos h]
      rw [← Reader.text_of_none hread]
      rfl
    · next c s' hread =>
      rw [Reader.text_of_some hread, charToDigit_eq]
      simp only [Except.bind]
      cases hd : radix.dig c with
      | none =>
        simp only [Option.map_none, leading, after, hd, List.append_nil, within, if_pos h]
        rw [← Reader.text_of_some hread]
        rfl
      | some d =>
        simp only [Option.map_some, leading, after, hd]
        have hsnoc : valueOf radix.toNat es * radix.toNat + d = valueOf radix.toNat (es ++ [d]) := by
          rw [valueOf_append]
          simp [valueOf]
        have happend : es ++ d :: leading radix.dig (reader.text s') =
            es ++ [d] ++ leading radix.dig (reader.text s') := by simp
        rw [accumulate_eq, hsnoc, happend]
        by_cases hin : InRange w (-(valueOf radix.toNat (es ++ [d]) : ℕ))
        · rw [checked_of_inRange hin]
          exact ih (size s') (hn ▸ reader.size_lt hread) hin rfl
        · have hle : valueOf radix.toNat (es ++ [d]) ≤
              valueOf radix.toNat (es ++ [d] ++ leading radix.dig (reader.text s')) := by
            have hpos : 0 < radix.toNat ^ (leading radix.dig (reader.text s')).length :=
              Nat.pow_pos (by have := one_lt_toNat radix; omega)
            rw [valueOf_append _ (leading radix.dig (reader.text s'))]
            exact (Nat.le_mul_of_pos_right _ hpos).trans (Nat.le_add_right _ _)
          have hout : ¬ InRange w
              (-(valueOf radix.toNat (es ++ [d] ++ leading radix.dig (reader.text s')) : ℕ)) := by
            rw [inRange_neg] at hin ⊢
            omega
          rw [checked, if_neg hin, within, if_neg hout]
          rfl

/-- A number with the other sign. -/
def negated : Option (ℤ × List Char) → Option (ℤ × List Char) := Option.map fun x => (-x.1, x.2)

theorem within_zero (t : List Char) : within (InRange w) (some (0, t)) = .ok (some (0, t)) := by
  have := sixteen_lt w
  exact if_pos ⟨by omega, by omega⟩

theorem answer_digitsFrom (c : Char) (s s' : α) :
    answer id reader.text (digitsFrom w radix reader radix.toNat c s (some (0, s'))) =
      within (InRange w) (negated ((numberText radix (c :: reader.text s)).or (some (0, reader.text s')))) ∧
    answer id reader.text (digitsFrom w radix reader radix.toNat c s none) =
      within (InRange w) (negated (numberText radix (c :: reader.text s))) := by
  simp only [digitsFrom, charToDigit_eq, Except.bind]
  cases hd : radix.dig c with
  | none =>
    have hnone : numberText radix (c :: reader.text s) = none := if_pos (by simp [leading, hd])
    rw [hnone]
    exact ⟨(within_zero _).symm, rfl⟩
  | some d =>
    have hlt := dig_lt c d hd
    have hle := toNat_le_sixteen radix
    have hw := sixteen_lt w
    have hvalue : d = valueOf radix.toNat [d] := by simp [valueOf]
    have hfinish := @answer_finishNum w radix α size reader s [d] (by
      rw [inRange_neg, ← hvalue]
      omega)
    rw [← hvalue] at hfinish
    have hnumber : numberText radix (c :: reader.text s) =
        some (((valueOf radix.toNat ([d] ++ leading radix.dig (reader.text s)) : ℕ) : ℤ),
          after radix.dig (reader.text s)) := by
      rw [numberText, if_neg (by simp [leading, hd])]
      simp [leading, after, hd]
    simp only [Option.map_some]
    rw [negWrap_eq (by omega) (by omega), hfinish, hnumber]
    exact ⟨rfl, rfl⟩

/-- **`num`** answers the negative of the number in front. -/
theorem answer_num (s : α) : answer id reader.text (num w radix reader radix.toNat s) =
    within (InRange w) (negated (unsignedText radix (reader.text s))) := by
  rw [num]
  cases hread : reader.read s with
  | none =>
    rw [Reader.text_of_none hread]
    cases radix <;> rfl
  | some x =>
    obtain ⟨c, s₁⟩ := x
    rw [Reader.text_of_some hread]
    dsimp only
    by_cases hzero : c = '0' ∧ radix = .hex
    · obtain ⟨rfl, rfl⟩ := hzero
      rw [if_pos ⟨rfl, rfl⟩]
      cases hread₁ : reader.read s₁ with
      | none =>
        rw [Reader.text_of_none hread₁]
        rw [show unsignedText .hex ['0'] = some (0, []) by decide]
        exact (congrArg (fun t => Except.ok (some (0, t))) (Reader.text_of_none hread₁)).trans (within_zero _).symm
      | some x =>
        obtain ⟨c, s'⟩ := x
        have htext := Reader.text_of_some hread₁
        dsimp only
        by_cases hx : c = 'x' ∨ c = 'X'
        · have hdig : Radix.hex.dig c = none := dig_sign (by obtain rfl | rfl := hx <;> simp)
          rw [if_pos hx, htext]
          cases hread' : reader.read s' with
          | none =>
            rw [Reader.text_of_none hread'] at htext ⊢
            have hhex : unsignedText .hex ('0' :: c :: []) = some (0, [c]) := by
              rw [unsignedText, hexText, if_neg (by simp [leading]), numberText_zero hdig]
            rw [hhex, ← htext]
            exact (within_zero _).symm
          | some x =>
            obtain ⟨c', s''⟩ := x
            have htext' := Reader.text_of_some hread'
            have hhex : unsignedText .hex ('0' :: c :: reader.text s') =
                (numberText .hex (reader.text s')).or (some (0, c :: reader.text s')) := by
              rw [unsignedText, hexText]
              by_cases hne : leading Radix.hex.dig (reader.text s') = []
              · rw [if_neg (by simp [hne]), numberText_zero hdig, numberText, if_pos hne]
                rfl
              · rw [if_pos ⟨hx, hne⟩, numberText, if_neg hne]
                rfl
            rw [hhex, ← htext, htext']
            exact (answer_digitsFrom c' s'' s₁).1
        · have hhex : unsignedText .hex ('0' :: c :: reader.text s') =
              (numberText .hex (c :: reader.text s')).or (some (0, c :: reader.text s')) := by
            rw [unsignedText, hexText, if_neg fun h => hx h.1, numberText_zero_cons]
          rw [if_neg hx, htext, hhex]
          exact (answer_digitsFrom c s' s₁).1.trans (by rw [htext])
    · have hnumber : unsignedText radix (c :: reader.text s₁) = numberText radix (c :: reader.text s₁) := by
        cases radix with
        | hex =>
          rw [unsignedText, hexText.eq_def]
          split
          · next heq => exact absurd ⟨(List.cons.inj heq).1, rfl⟩ hzero
          · rfl
        | bin => rfl
        | oct => rfl
        | dec => rfl
      rw [if_neg hzero, hnumber]
      exact (answer_digitsFrom c s₁ s₁).2

/-- **`negate`** answers the number in front. -/
theorem answer_negate (s : α) : answer id reader.text (negate w radix reader radix.toNat s) =
    within (InRange w) (unsignedText radix (reader.text s)) := by
  have hnum : answer id reader.text (num w radix reader radix.toNat s) =
      within (InRange w) (negated (unsignedText radix (reader.text s))) := answer_num s
  rw [negate]
  cases hread : unsignedText radix (reader.text s) with
  | none =>
    rw [hread] at hnum
    rw [answer_eq_none hnum]
    rfl
  | some x =>
    obtain ⟨v, rest⟩ := x
    obtain ⟨-, -, ds, digits, -, -, -, hv⟩ := unsignedText_sound hread
    rw [hread] at hnum
    by_cases hin : InRange w (-v)
    · obtain ⟨n, s', hnum, hn, rfl⟩ := answer_eq_some (hnum.trans (if_pos hin))
      obtain rfl : n = -v := hn
      rw [hnum]
      simp only [Except.bind]
      rw [neg, neg_neg, checked, within]
      split <;> rfl
    · have hout : ¬ InRange w v := by
        have := sixteen_lt w
        rw [hv, inRange_neg] at hin
        rw [hv, InRange]
        omega
      rw [answer_eq_error (hnum.trans (if_neg hin)), within, if_neg hout]
      rfl

/-- **`scan`** answers the number in front of a text, if it is in range. -/
theorem answer_scan (s : α) : answer id reader.text (scan w radix reader s) =
    within (InRange w) (scanText radix (reader.text s)) := by
  have hnil : unsignedText radix [] = none := by cases radix <;> rfl
  rw [scan, scanText, ← text_skipWS, fromInt_toNat]
  generalize skipWS reader s = s
  simp only [Except.bind]
  cases hread : reader.read s with
  | none =>
    rw [Reader.text_of_none hread]
    simp only [signText, hnil]
    rfl
  | some x =>
    obtain ⟨c, s'⟩ := x
    have hnegative : (unsignedText radix (reader.text s')).map (fun x => (if true then -x.1 else x.1, x.2)) =
        negated (unsignedText radix (reader.text s')) := rfl
    have hpositive : ∀ s : α, (unsignedText radix (reader.text s)).map (fun x => (if false then -x.1 else x.1, x.2)) =
        unsignedText radix (reader.text s) := fun s => by simp
    rw [Reader.text_of_some hread, signText_cons]
    by_cases htilde : c = '~'
    · subst htilde
      exact (answer_num s').trans (congrArg _ hnegative.symm)
    by_cases hminus : c = '-'
    · subst hminus
      exact (answer_num s').trans (congrArg _ hnegative.symm)
    by_cases hplus : c = '+'
    · subst hplus
      exact (answer_negate s').trans (congrArg _ (hpositive s').symm)
    simp only [if_neg htilde, if_neg hminus, if_neg hplus]
    rw [← Reader.text_of_some hread]
    exact (answer_negate s).trans (congrArg _ (hpositive s).symm)

/-- What an unbounded reader reads is the longest numeral. -/
theorem longest_scanText : Longest (IntInf.Numeral radix) (scanText radix) := ⟨scanText_sound, scanText_numeral⟩

/-- **The longest numeral in front of a text is scanned.** -/
theorem scans (s : α) :
    Scans (IntInf.Numeral radix) (InRange w) (reader.text s) (answer id reader.text (scan w radix reader s)) := by
  rw [answer_scan]
  exact longest_scanText.scans _

/-- The letters of a prefix, after its `0`. -/
def prefixLetters (radix : Radix) : List Char := if radix = .hex then ['x', 'X'] else []

/-- **The text of an integer is scanned back**, and what is after it is left. -/
theorem scan_fmt {n : ℤ} (h : InRange w n) {s : α} {rest : List Char}
    (htext : reader.text s = signOf n ++ digitsText radix n.natAbs ++ rest)
    (hdigit : ∀ c ∈ rest.head?, radix.dig c = none) (hletters : n = 0 → ∀ c ∈ rest.head?, c ∉ prefixLetters radix) :
    ∃ s', scan w radix reader s = .ok (some (n, s')) ∧ reader.text s' = rest := by
  have hnot : ¬ Prefixes radix n rest := by
    rintro ⟨hhex, hzero, c, t, rfl, hx, -⟩
    refine hletters hzero c rfl ?_
    rw [prefixLetters, if_pos hhex]
    simpa using hx
  have hread : scanText radix (reader.text s) = some (n, rest) := by
    rw [htext]
    exact (scanText_digitsText radix n hdigit).mpr hnot
  have hanswer : answer id reader.text (scan w radix reader s) = .ok (some (n, rest)) := by
    rw [answer_scan, hread]
    exact if_pos h
  obtain ⟨n', s', hscan, hn, hrest⟩ := answer_eq_some hanswer
  obtain rfl : n' = n := hn
  exact ⟨s', hscan, hrest⟩

end Scan

end FixedInt

end MLton
