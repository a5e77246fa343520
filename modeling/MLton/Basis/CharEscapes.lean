import MLton.Basis.CharScan

/-!
# Basis/CharEscapes — what the escapes of characters denote, and what is read of them

A text denotes a character by being it or by an escape, and gaps may stand around it.  What is written is read
back (`toString_reads`, `toCString_reads`).  What `scan` makes of a text that denotes a character is told by
`scan_denotes`: it is right but for codes that are no `int`, which are an overflow, and for a gap after an
escape, which is left in the text (`scan_correct_iff`).
-/

namespace MLton.CharFn

open IntInf

/-! ## The grammar -/

/-- **A gap**: white space between backslashes, in front of a text. -/
def StartsGap (s : List Char) : Prop :=
  ∃ spaces rest, s = '\\' :: (spaces ++ '\\' :: rest) ∧ spaces ≠ [] ∧ ∀ c ∈ spaces, isSpace c = true

/-- Gaps, one after the other. -/
inductive Gaps : List Char → Prop
  | nil : Gaps []
  | cons {spaces g : List Char} : spaces ≠ [] → (∀ c ∈ spaces, isSpace c = true) → Gaps g →
      Gaps ('\\' :: (spaces ++ '\\' :: g))

/-- The escapes of one letter. -/
def letters : List (Char × ℕ) :=
  [('a', 7), ('b', 8), ('t', 9), ('n', 10), ('v', 11), ('f', 12), ('r', 13), ('\\', 92), ('"', 34)]

/-- **The escapes**, without their backslash, and the codes they denote. -/
inductive Escape : List Char → ℕ → Prop
  | letter {c : Char} {k : ℕ} : (c, k) ∈ letters → Escape [c] k
  | control {c : Char} : '@' ≤ c → c ≤ '_' → Escape ['^', c] (c.toNat - '@'.toNat)
  | unicode {u : Char} {ds : List Char} {digits : List ℕ} : (u, digits.length) ∈ [('u', 4), ('U', 8)] →
      ds.map Radix.hex.dig = digits.map some → Escape (u :: ds) (valueOf 16 digits)
  | decimal {ds : List Char} {digits : List ℕ} : digits.length = 3 →
      ds.map Radix.dec.dig = digits.map some → Escape ds (valueOf 10 digits)

/-- **What a text denotes**: a printable character, or what its escape does. -/
inductive Denotes : List Char → ℕ → Prop
  | plain {c : Char} : printable c → c ≠ '\\' → c ≠ '"' → Denotes [c] c.toNat
  | escape {e : List Char} {k : ℕ} : Escape e k → Denotes ('\\' :: e) k

/-- An escape that is not complete, in front of a text. -/
def Incomplete (s : List Char) : Prop :=
  ¬ StartsGap s ∧ ∃ u, s = '\\' :: u ∧ ∀ e k rest, Escape e k → u ≠ e ++ rest

/-! ## Gaps -/

section Gaps

theorem formatChars_spec : ∀ s : List Char, ∃ spaces, s = spaces ++ formatChars s ∧
    ∀ c ∈ spaces, isSpace c = true
  | [] => ⟨[], rfl, by simp⟩
  | c :: s => by
    rw [formatChars]
    split
    next hc =>
      obtain ⟨spaces, hs, hall⟩ := formatChars_spec s
      exact ⟨c :: spaces, by rw [List.cons_append, ← hs], List.forall_mem_cons.mpr ⟨hc, hall⟩⟩
    next => exact ⟨[], rfl, by simp⟩

theorem formatChars_spaces (rest : List Char) : ∀ {spaces : List Char}, (∀ c ∈ spaces, isSpace c = true) →
    formatChars (spaces ++ '\\' :: rest) = '\\' :: rest
  | [], _ => rfl
  | c :: spaces, h => by
    rw [List.cons_append, formatChars, if_pos (h c (List.mem_cons_self ..))]
    exact formatChars_spaces rest fun d hd => h d (List.mem_cons_of_mem _ hd)

theorem formatSequencesOpt_none {s : List Char} (h : ¬ StartsGap s) : formatSequencesOpt s = none := by
  rw [formatSequencesOpt.eq_def]
  split
  next state1 =>
    split
    next => rfl
    next state2 hchar =>
      split
      next state4 hchars =>
        refine absurd ?_ h
        obtain ⟨spaces, hs, hall⟩ := formatChars_spec state2
        cases state1 with
        | nil => cases hchar
        | cons c s =>
          simp only [formatChar, Option.ite_none_right_eq_some, Option.some.injEq] at hchar
          obtain ⟨hc, rfl⟩ := hchar
          rw [hchars] at hs
          exact ⟨c :: spaces, state4, by rw [List.cons_append, ← hs], by simp,
            List.forall_mem_cons.mpr ⟨hc, hall⟩⟩
      next => rfl
  next => rfl

theorem formatSequencesOpt_gap {spaces : List Char} (rest : List Char) (hne : spaces ≠ [])
    (hall : ∀ c ∈ spaces, isSpace c = true) :
    formatSequencesOpt ('\\' :: (spaces ++ '\\' :: rest)) = some (formatSequences rest) := by
  match spaces, hne with
  | c :: spaces, _ =>
    obtain ⟨hc, hall⟩ := List.forall_mem_cons.mp hall
    have hchar : formatChar (c :: (spaces ++ '\\' :: rest)) = some (spaces ++ '\\' :: rest) := if_pos hc
    rw [List.cons_append, formatSequencesOpt]
    split
    next h => simp [hchar] at h
    next state2 h =>
      obtain rfl := Option.some.inj (hchar.symm.trans h)
      split
      next state4 h' =>
        obtain rfl : rest = state4 := by
          simpa only [formatChars_spaces rest hall, List.cons.injEq, true_and] using h'
        rw [formatSequences]
        cases formatSequencesOpt rest <;> rfl
      next h' => exact absurd (formatChars_spaces rest hall) (h' _)

/-- **Gaps are skipped**, all of them. -/
theorem formatSequences_gaps {g rest : List Char} (hg : Gaps g) (hrest : ¬ StartsGap rest) :
    formatSequences (g ++ rest) = rest := by
  induction hg with
  | nil => rw [List.nil_append, formatSequences, formatSequencesOpt_none hrest, Option.getD_none]
  | cons hne hall _ ih =>
    rw [List.cons_append, List.append_assoc, List.cons_append, formatSequences, formatSequencesOpt_gap _ hne hall,
      Option.getD_some, ih]

/-- The gaps in front of a text, and the text after them. -/
theorem exists_gaps (s : List Char) : ∃ g rest, s = g ++ rest ∧ Gaps g ∧ ¬ StartsGap rest := by
  by_cases h : StartsGap s
  · obtain ⟨spaces, s', hs, hne, hall⟩ := h
    obtain ⟨g, rest, rfl, hg, hrest⟩ := exists_gaps s'
    exact ⟨_, rest, by simpa using hs, .cons hne hall hg, hrest⟩
  · exact ⟨[], s, rfl, .nil, h⟩
termination_by s.length
decreasing_by
  rw [hs]
  simp only [List.length_cons, List.length_append]
  omega

/-- After a backslash a gap has a space. -/
theorem isSpace_of_startsGap {c : Char} {s : List Char} (h : StartsGap ('\\' :: c :: s)) : isSpace c = true := by
  obtain ⟨spaces, rest, heq, hne, hall⟩ := h
  match spaces, hne with
  | d :: spaces, _ =>
    simp only [List.cons_append, List.cons.injEq, true_and] at heq
    exact heq.1 ▸ hall d (List.mem_cons_self ..)

theorem not_startsGap_of_ne {c : Char} {s : List Char} (h : c ≠ '\\') : ¬ StartsGap (c :: s) := by
  rintro ⟨_, _, heq, -⟩
  exact h (List.cons.inj heq).1

end Gaps

/-! ## Numbers -/

section Numbers

variable {I : DefaultInt} {radix : Radix}

theorem DefaultInt.Fits.mono {m n : ℕ} (h : I.Fits n) (hle : m ≤ n) : I.Fits m := fun k hk => hle.trans (h k hk)

/-- What has at most seven hexadecimal digits fits, in all of the integers. -/
theorem fits_of_lt : ∀ (I : DefaultInt) {n : ℕ}, n ≤ 16 ^ 7 → I.Fits n
  | .int32, _, h => fun m hm => by
    simp only [DefaultInt.maxInt, Option.mem_some_iff] at hm
    omega
  | .int64, _, h => fun m hm => by
    simp only [DefaultInt.maxInt, Option.mem_some_iff] at hm
    omega
  | .intInf, _, _ => fun m hm => by cases hm

theorem checked_of_fits {n : ℕ} (h : I.Fits n) : I.checked n = .ok n := if_pos h

theorem checked_of_not_fits {n : ℕ} (h : ¬ I.Fits n) : I.checked n = .error .overflow := if_neg h

theorem accumulate_eq (n accum : ℕ) :
    accumulate I radix n accum = I.checked (n + accum * radix.toNat) := by
  rw [accumulate]
  by_cases h : I.Fits (accum * radix.toNat)
  · rw [checked_of_fits h]
    rfl
  · rw [checked_of_not_fits h, checked_of_not_fits fun h' => h (h'.mono (Nat.le_add_left ..))]
    rfl

/-- **Digits are read as a number**, which is checked. -/
theorem digitsExactLoop_digits (rest : List Char) : ∀ {ds : List Char} {digits : List ℕ} {accum : ℕ},
    I.Fits accum → ds.map radix.dig = digits.map some →
    digitsExactLoop I radix digits.length accum (ds ++ rest) =
      (I.checked (accum * radix.toNat ^ digits.length + valueOf radix.toNat digits)).map fun n => some (n, rest)
  | [], [], accum, hacc, _ => by
    rw [List.length_nil, pow_zero, Nat.mul_one, valueOf_nil, Nat.add_zero, checked_of_fits hacc]
    rfl
  | c :: ds, d :: digits, accum, hacc, h => by
    simp only [List.map_cons, List.cons.injEq] at h
    have hpow : 0 < radix.toNat ^ digits.length := Nat.pow_pos (by have := one_lt_toNat radix; omega)
    have htotal : accum * radix.toNat ^ (digits.length + 1) + valueOf radix.toNat (d :: digits) =
        (d + accum * radix.toNat) * radix.toNat ^ digits.length + valueOf radix.toNat digits := by
      rw [valueOf_cons]
      ring
    rw [List.cons_append, List.length_cons, digitsExactLoop, h.1, htotal]
    simp only [accumulate_eq]
    by_cases hfits : I.Fits (d + accum * radix.toNat)
    · rw [checked_of_fits hfits]
      exact digitsExactLoop_digits rest hfits h.2
    · rw [checked_of_not_fits hfits, checked_of_not_fits fun h' => hfits (h'.mono ?_)]
      · rfl
      · exact (Nat.le_mul_of_pos_right _ hpow).trans (Nat.le_add_right ..)

/-- Where the digits are too few, nothing is read, for the digits there are fit. -/
theorem digitsExactLoop_none {accum k : ℕ} : ∀ {num : ℕ} {s : List Char}, accum < radix.toNat ^ k →
    I.Fits (radix.toNat ^ (k + num - 1)) →
    (∀ ds digits rest, s = ds ++ rest → ds.map radix.dig = List.map some digits → digits.length ≠ num) →
    digitsExactLoop I radix num accum s = .ok none
  | 0, s, _, _, h => absurd rfl (h [] [] s rfl rfl)
  | _ + 1, [], _, _, _ => rfl
  | num + 1, c :: s, hacc, hfits, h => by
    rw [digitsExactLoop]
    cases hd : radix.dig c with
    | none => rfl
    | some d =>
      have hmore : num ≠ 0 := by
        rintro rfl
        exact h [c] [d] s rfl (by simp [hd]) rfl
      have hlt : d + accum * radix.toNat < radix.toNat ^ (k + 1) := by
        have hdig := dig_lt c d hd
        calc d + accum * radix.toNat < (accum + 1) * radix.toNat := by rw [Nat.add_mul]; omega
          _ ≤ radix.toNat ^ k * radix.toNat := Nat.mul_le_mul_right _ hacc
          _ = radix.toNat ^ (k + 1) := (pow_succ ..).symm
      have hle : radix.toNat ^ (k + 1) ≤ radix.toNat ^ (k + (num + 1) - 1) :=
        Nat.pow_le_pow_right (by have := one_lt_toNat radix; omega) (by omega)
      simp only [accumulate_eq]
      rw [checked_of_fits (hfits.mono (hlt.le.trans hle))]
      refine digitsExactLoop_none hlt ?_ fun ds digits rest hs hds hlen => ?_
      · rwa [show k + 1 + num - 1 = k + (num + 1) - 1 by omega]
      · refine h (c :: ds) (d :: digits) rest (by rw [hs]; rfl) ?_ (by rw [List.length_cons, hlen])
        rw [List.map_cons, List.map_cons, hd, hds]

end Numbers

/-! ## Escapes -/

section Escapes

variable {C : PreChar} {I : DefaultInt}

theorem chrOpt_of_lt {k : ℕ} (h : k < 256) : chrOpt C k = some (chrUnsafe C k) := by
  have hlt := h.trans_le C.le_numChars
  rw [chrOpt, dif_pos hlt, chrUnsafe]
  simp only [Nat.mod_eq_of_lt hlt]

/-- What an escape of code `k` is read as, in front of a text. -/
def readAs (C : PreChar) (I : DefaultInt) (k : ℕ) (rest : List Char) : Answer C.Chr :=
  mapChr C ((I.checked k).map fun n => some (n, rest))

theorem readAs_of_fits {k : ℕ} (h : I.Fits k) (rest : List Char) :
    readAs C I k rest = .ok ((chrOpt C k).map fun c => (c, rest)) := by
  rw [readAs, checked_of_fits h]
  rfl

theorem readAs_of_not_fits {k : ℕ} (h : ¬ I.Fits k) (rest : List Char) :
    readAs C I k rest = .error .overflow := by
  rw [readAs, checked_of_not_fits h]
  rfl

theorem readAs_of_lt {k : ℕ} (h : k < 256) (rest : List Char) :
    readAs C I k rest = .ok (some (chrUnsafe C k, rest)) := by
  rw [readAs_of_fits (fits_of_lt I (by omega)), chrOpt_of_lt h]
  rfl

theorem mapChr_digits {radix : Radix} {ds : List Char} {digits : List ℕ} (rest : List Char)
    (h : ds.map radix.dig = digits.map some) :
    mapChr C (digitsExact I radix digits.length (ds ++ rest)) = readAs C I (valueOf radix.toNat digits) rest := by
  rw [digitsExact, digitsExactLoop_digits rest (fits_of_lt I (Nat.zero_le _)) h, Nat.zero_mul, Nat.zero_add]
  rfl

/-- A digit is no letter of an escape. -/
theorem escape_digit {c : Char} (h : (Radix.dec.dig c).isSome = true) (s : List Char) :
    escape C I (c :: s) = mapChr C (digitsExact I .dec 3 (c :: s)) := by
  rw [escape.eq_def]
  dsimp only
  split <;> first | rfl | exact absurd h (by decide)

/-- **An escape is read** as the character of its code, if the code is an `int`. -/
theorem escape_spec {e : List Char} {k : ℕ} (h : Escape e k) (rest : List Char) :
    escape C I (e ++ rest) = readAs C I k rest := by
  cases h with
  | @letter c _ hmem =>
    have hread := readAs_of_lt (C := C) (I := I) (k := k)
    simp only [letters, List.mem_cons, Prod.mk.injEq, List.not_mem_nil, or_false] at hmem
    obtain h | h | h | h | h | h | h | h | h := hmem <;> obtain ⟨rfl, rfl⟩ := h <;>
      exact (hread (by omega) rest).symm
  | @control c hlo hhi =>
    have hlt : c.toNat - '@'.toNat < 256 := by
      have : c.toNat ≤ '_'.toNat := hhi
      simp only [Char.reduceToNat] at this ⊢
      omega
    rw [readAs_of_lt hlt]
    exact if_pos ⟨hlo, hhi⟩
  | @unicode u ds digits hu hds =>
    rw [show 16 = Radix.hex.toNat from rfl, ← mapChr_digits rest hds]
    simp only [List.mem_cons, Prod.mk.injEq, List.not_mem_nil, or_false] at hu
    obtain ⟨rfl, hlen⟩ | ⟨rfl, hlen⟩ := hu <;> rw [hlen] <;> rfl
  | @decimal _ digits hlen hds =>
    rw [show 10 = Radix.dec.toNat from rfl, ← mapChr_digits rest hds, hlen]
    match e, digits, hlen, hds with
    | [], d :: digits, _, hds => cases hds
    | c :: e, d :: digits, _, hds =>
      exact escape_digit (Option.isSome_of_mem (List.cons.inj hds).1) (e ++ rest)

/-- **An escape that is not complete is not read.** -/
theorem escape_none {u : List Char} (h : ∀ e k rest, Escape e k → u ≠ e ++ rest) :
    escape C I u = .ok none := by
  have hdigits (radix : Radix) (num : ℕ) (s : List Char) (hnum : radix.toNat ^ (num - 1) ≤ 16 ^ 7)
      (hs : ∀ ds digits rest, s = ds ++ rest → ds.map radix.dig = List.map some digits → digits.length ≠ num) :
      mapChr C (digitsExact I radix num s) = .ok none := by
    rw [digitsExact, digitsExactLoop_none (k := 0) (by simp) (by simpa using fits_of_lt I hnum) hs]
    rfl
  have hletter (c : Char) (hmem : c ∈ letters.map Prod.fst) (s : List Char) : u ≠ c :: s := by
    obtain ⟨⟨c, k⟩, hletter, rfl⟩ := List.mem_map.mp hmem
    exact h [c] k s (.letter hletter)
  match u, h with
  | [], _ => rfl
  | c :: s, h =>
    have hunicode (u : Char) (num : ℕ) (hu : (u, num) ∈ [('u', 4), ('U', 8)]) (hc : c = u) :
        ∀ ds digits rest, s = ds ++ rest → ds.map Radix.hex.dig = List.map some digits → digits.length ≠ num := by
      rintro ds digits rest rfl hds rfl
      exact h (u :: ds) _ rest (.unicode hu hds) (by rw [hc, List.cons_append])
    rw [escape.eq_def]
    dsimp only
    split
    iterate 9 exact absurd rfl (hletter _ (by decide) s)
    · match s with
      | [] => rfl
      | c :: s =>
        refine if_neg fun hc => ?_
        exact h ['^', c] _ s (.control hc.1 hc.2) rfl
    · exact hdigits _ _ _ (by decide) (hunicode 'u' 4 (by simp) rfl)
    · exact hdigits _ _ _ (by decide) (hunicode 'U' 8 (by simp) rfl)
    · refine hdigits _ _ _ (by decide) fun ds digits rest hs hds hlen => ?_
      exact h ds _ rest (.decimal hlen hds) hs

end Escapes

/-! ## Characters -/

section Scan

variable {C : PreChar} {I : DefaultInt} {g : List Char}

theorem Escape.head {e : List Char} {k : ℕ} (h : Escape e k) : ∃ c s, e = c :: s ∧ isSpace c = false := by
  cases h with
  | @letter c k hmem =>
    have hall : ∀ x ∈ letters, isSpace x.1 = false := by decide
    exact ⟨c, [], rfl, hall _ hmem⟩
  | @control c _ _ => exact ⟨'^', [c], rfl, by decide⟩
  | @unicode u ds _ hu _ =>
    have hall : ∀ x ∈ [('u', 4), ('U', 8)], isSpace x.1 = false := by decide
    exact ⟨u, ds, rfl, hall _ hu⟩
  | @decimal _ digits hlen hds =>
    match e, digits, hlen, hds with
    | [], _ :: _, _, hds => cases hds
    | c :: e, d :: _, _, hds =>
      refine ⟨c, e, rfl, Bool.eq_false_iff.mpr fun hspace => ?_⟩
      have hall : ∀ c ∈ [' ', '\t', '\r', '\n', Char.ofNat 11, Char.ofNat 12], Radix.dec.dig c = none :=
        List.forall_iff_forall_mem.mp (by decide)
      have hnone := hall c (by simpa [isSpace] using hspace)
      rw [(List.cons.inj hds).1] at hnone
      cases hnone

/-- **A text that denotes a character is no gap.** -/
theorem Denotes.not_startsGap {t : List Char} {k : ℕ} (h : Denotes t k) (rest : List Char) :
    ¬ StartsGap (t ++ rest) := by
  cases h with
  | plain _ hb _ => exact not_startsGap_of_ne hb
  | escape he =>
    obtain ⟨c, s, rfl, hspace⟩ := he.head
    exact fun hgap => Bool.eq_false_iff.mp hspace (isSpace_of_startsGap hgap)

theorem scan_escape {e : List Char} {k : ℕ} (hg : Gaps g) (he : Escape e k) (rest : List Char) :
    scan C I (g ++ ('\\' :: e ++ rest)) = readAs C I k rest := by
  rw [scan, formatSequences_gaps hg ((Denotes.escape he).not_startsGap rest)]
  exact escape_spec he rest

theorem scan_plain {c : Char} (hg : Gaps g) (hc : printable c) (hb : c ≠ '\\') (hq : c ≠ '"') (rest : List Char) :
    scan C I (g ++ ([c] ++ rest)) = .ok (some (fromChar C c, formatSequences rest)) := by
  rw [scan, formatSequences_gaps hg ((Denotes.plain hc hb hq).not_startsGap rest)]
  simp only [List.singleton_append, if_pos hc]

theorem scan_incomplete {u : List Char} (hg : Gaps g) (hu : Incomplete u) : scan C I (g ++ u) = .ok none := by
  obtain ⟨hgap, u, rfl, hnone⟩ := hu
  rw [scan, formatSequences_gaps hg hgap]
  exact escape_none hnone

theorem chrOpt_plain {c : Char} (h : printable c) : chrOpt C c.toNat = some (fromChar C c) := by
  have hle : c.toNat ≤ '~'.toNat := h.2
  refine chrOpt_of_lt ?_
  simp only [Char.reduceToNat] at hle
  omega

end Scan

/-! ## What is written -/

section Written

variable {C : PreChar}

theorem valueOf_zeros (base : ℕ) (ds : List ℕ) : ∀ m, valueOf base (List.replicate m 0 ++ ds) = valueOf base ds
  | 0 => rfl
  | m + 1 => by
    rw [List.replicate_succ, List.cons_append, valueOf_cons, valueOf_zeros base ds m, Nat.zero_mul, Nat.zero_add]

/-- **A number in a field that is wide enough** is digits of its valueOf, as many as the field is wide. -/
theorem padLeft_spec (radix : Radix) (k n : ℕ) (hn : 0 < n) (hk : k < radix.toNat ^ n) :
    ∃ ds digits, padLeft (smallFmt radix k) n = .ok ds ∧ ds.map radix.dig = List.map some digits ∧
      digits.length = n ∧ valueOf radix.toNat digits = k := by
  have hfmt : smallFmt radix k = digitsText radix k := by
    rw [smallFmt_eq, if_neg (by omega), List.nil_append, Int.natAbs_natCast]
  have hlen : (digitsText radix k).length ≤ n := by
    rw [digitsText]
    split
    next => exact hn
    next =>
      rw [List.length_map, List.length_reverse]
      exact (Nat.digits_length_le_iff (one_lt_toNat radix) _).mpr hk
  obtain ⟨digits, hmap, hvalue, -⟩ := map_digitsText radix k
  have hdigits : (digitsText radix k).length = digits.length := by
    simpa only [List.length_map] using congrArg List.length hmap
  have hzero : radix.dig '0' = some 0 := by cases radix <;> rfl
  rw [hfmt, padLeft]
  by_cases hlt : (digitsText radix k).length < n
  · refine ⟨_, List.replicate (n - digits.length) 0 ++ digits, if_pos (by omega), ?_, ?_, ?_⟩
    · rw [List.map_append, List.map_append, hmap, List.map_replicate, List.map_replicate, hzero]
      congr 2
      omega
    · rw [List.length_append, List.length_replicate]
      omega
    · rw [valueOf_zeros, hvalue]
  · refine ⟨digitsText radix k, digits, ?_, hmap, by omega, hvalue⟩
    rw [if_neg (by omega), if_pos (by omega)]

theorem toNat_ofNat {n : ℕ} (h : n < 256) : (Char.ofNat n).toNat = n := by
  rw [Char.ofNat, dif_pos (.inl (by omega))]
  rfl

/-- **The escape of a large code** is of four digits or of eight. -/
theorem unicodeEscape_spec {k : ℕ} (hk : k < 16 ^ 8) : ∃ u num ds digits, (u, num) ∈ [('u', 4), ('U', 8)] ∧
    unicodeEscape k = .ok ('\\' :: u :: ds) ∧ ds.map Radix.hex.dig = List.map some digits ∧
      digits.length = num ∧ valueOf 16 digits = k := by
  rw [unicodeEscape]
  split
  · obtain ⟨ds, digits, hpad, hmap, hlen, hvalue⟩ := padLeft_spec .hex k 4 (by omega)
      (by simp only [Radix.toNat]; omega)
    exact ⟨'u', 4, ds, digits, by simp, by rw [hpad]; rfl, hmap, hlen, hvalue⟩
  · obtain ⟨ds, digits, hpad, hmap, hlen, hvalue⟩ := padLeft_spec .hex k 8 (by omega)
      (by simp only [Radix.toNat]; omega)
    exact ⟨'U', 8, ds, digits, by simp, by rw [hpad]; rfl, hmap, hlen, hvalue⟩

theorem PreChar.numChars_le : ∀ C : PreChar, C.numChars ≤ 1114112
  | char8 => by decide
  | char16 => by decide
  | char32 => le_refl _

/-- The character of a code that is printable. -/
theorem isPrint.printable {k : ℕ} (h : isPrint k) : printable (Char.ofNat k) ∧ (Char.ofNat k).toNat = k := by
  have hle : k ≤ '~'.toNat := h.2
  have hnat := toNat_ofNat (n := k) (by simp only [Char.reduceToNat] at hle; omega)
  refine ⟨⟨?_, ?_⟩, hnat⟩
  · show ' '.toNat ≤ (Char.ofNat k).toNat
    exact hnat.symm ▸ h.1
  · show (Char.ofNat k).toNat ≤ '~'.toNat
    exact hnat.symm ▸ hle

theorem ofNat_ne {k : ℕ} {c : Char} (h : isPrint k) (hne : k ≠ c.toNat) : Char.ofNat k ≠ c := by
  rintro rfl
  exact hne h.printable.2.symm

/-- **What `toString` writes denotes the character.** -/
theorem toString_denotes (c : C.Chr) : ∃ t, toString c = .ok t ∧ Denotes t c.val := by
  have hmax := C.numChars_le
  have hlt := c.isLt
  have hletter {l : Char} {k : ℕ} (hk : c.val = k) (hmem : (l, k) ∈ letters) :
      ∃ t, (Except.ok ['\\', l] : Except Exn _) = .ok t ∧ Denotes t c.val := by
    rw [hk]
    exact ⟨_, rfl, .escape (.letter hmem)⟩
  rw [toString]
  split
  next hprint =>
    split
    next h => exact hletter h (by decide)
    next h => exact hletter h (by decide)
    next hb hq =>
      obtain ⟨hprint', hnat⟩ := hprint.printable
      refine ⟨_, rfl, ?_⟩
      have hplain := Denotes.plain hprint' (ofNat_ne hprint hb) (ofNat_ne hprint hq)
      rwa [hnat] at hplain
  next =>
    split
    iterate 7 next h => exact hletter h (by decide)
    split
    next h =>
      have hnat := toNat_ofNat (n := c.val + 64) (by omega)
      have hcontrol : Escape ['^', Char.ofNat (c.val + 64)] ((Char.ofNat (c.val + 64)).toNat - '@'.toNat) := by
        refine .control ?_ ?_
        · show 64 ≤ (Char.ofNat (c.val + 64)).toNat
          omega
        · show (Char.ofNat (c.val + 64)).toNat ≤ 95
          omega
      rw [hnat, show '@'.toNat = 64 from rfl, Nat.add_sub_cancel] at hcontrol
      exact ⟨_, rfl, .escape hcontrol⟩
    split
    next h =>
      obtain ⟨ds, digits, hpad, hmap, hlen, hvalue⟩ := padLeft_spec .dec c.val 3 (by omega)
        (by simp only [Radix.toNat]; omega)
      refine ⟨'\\' :: ds, by rw [hpad]; rfl, ?_⟩
      rw [← hvalue]
      exact .escape (.decimal hlen hmap)
    next =>
      obtain ⟨u, num, ds, digits, hu, huni, hmap, rfl, hvalue⟩ := unicodeEscape_spec (k := c.val) (by omega)
      refine ⟨_, huni, ?_⟩
      rw [← hvalue]
      exact .escape (.unicode hu hmap)

end Written

/-! ## Reading back -/

section Back

variable {C : PreChar} {I : DefaultInt}

/-- **Reading again and again**, until nothing is read. -/
inductive Reads (read : List Char → Answer C.Chr) : List Char → List C.Chr → List Char → Prop
  | stop {s : List Char} : read s = .ok none → Reads read s [] s
  | read {s s' s'' : List Char} {c : C.Chr} {cs : List C.Chr} : read s = .ok (some (c, s')) → Reads read s' cs s'' →
      Reads read s (c :: cs) s''

/-- Where each text is read as its character in front of any such texts, they all are. -/
theorem reads_texts (write : C.Chr → Except Exn (List Char)) {read : List Char → Answer C.Chr}
    (Q : List Char → Prop) (hnil : Q []) (hend : read [] = .ok none)
    (hread : ∀ c, ∃ t, write c = .ok t ∧ ∀ rest, Q rest → Q (t ++ rest) ∧ read (t ++ rest) = .ok (some (c, rest))) :
    ∀ cs : List C.Chr, ∃ texts, cs.mapM write = .ok texts ∧ Q texts.flatten ∧ Reads read texts.flatten cs []
  | [] => ⟨[], rfl, hnil, .stop hend⟩
  | c :: cs => by
    obtain ⟨texts, hmap, hQ, hreads⟩ := reads_texts write Q hnil hend hread cs
    obtain ⟨t, ht, hrest⟩ := hread c
    obtain ⟨hQ', hread'⟩ := hrest _ hQ
    refine ⟨t :: texts, ?_, hQ', .read hread' hreads⟩
    rw [List.mapM_cons, ht, hmap]
    rfl

theorem chrOpt_val (c : C.Chr) : chrOpt C c.val = some c := dif_pos c.isLt

theorem fits_chr (c : C.Chr) : I.Fits c.val :=
  fits_of_lt I (by have := c.isLt; have := C.numChars_le; omega)

/-- What denotes a character is read as it, in front of a text that no gap is in front of. -/
theorem scan_of_denotes {t : List Char} {c : C.Chr} (h : Denotes t c.val) {rest : List Char}
    (hrest : ¬ StartsGap rest) : scan C I (t ++ rest) = .ok (some (c, rest)) := by
  generalize hk : c.val = k at h
  cases h with
  | plain hc hb hq =>
    have hchr := chrOpt_plain (C := C) hc
    rw [← hk, chrOpt_val, Option.some.injEq] at hchr
    have hscan := scan_plain (C := C) (I := I) .nil hc hb hq rest
    have hskip := formatSequences_gaps .nil hrest
    rw [List.nil_append] at hscan hskip
    rw [hscan, ← hchr, hskip]
  | escape he =>
    have hscan := scan_escape (C := C) (I := I) .nil he rest
    rw [List.nil_append] at hscan
    rw [hscan, ← hk, readAs_of_fits (fits_chr c), chrOpt_val]
    rfl

theorem toString_reads (cs : List C.Chr) :
    ∃ texts, cs.mapM toString = .ok texts ∧ Reads (scan C I) texts.flatten cs [] := by
  have hend : scan C I [] = .ok none := by
    rw [scan, ← List.nil_append [], formatSequences_gaps .nil (by rintro ⟨_, _, h, -⟩; cases h)]
  obtain ⟨texts, hmap, -, hreads⟩ := reads_texts toString (¬ StartsGap ·)
    (by rintro ⟨_, _, h, -⟩; cases h) hend (fun c => by
      obtain ⟨t, ht, hden⟩ := toString_denotes c
      exact ⟨t, ht, fun rest hrest => ⟨hden.not_startsGap rest, scan_of_denotes hden hrest⟩⟩) cs
  exact ⟨texts, hmap, hreads⟩

/-! ## The escapes of C -/

theorem digitsUpTo_of_exact {radix : Radix} {x : ℕ × List Char} : ∀ {num accum : ℕ} {s : List Char},
    digitsExactLoop I radix num accum s = .ok (some x) → digitsUpTo I radix num accum s = .ok (some x)
  | 0, _, _, h => h
  | num + 1, accum, c :: s, h => by
    rw [digitsExactLoop] at h
    rw [digitsUpTo]
    cases hd : radix.dig c with
    | none => simp [hd] at h
    | some d =>
      simp only [hd] at h ⊢
      cases hacc : accumulate I radix d accum with
      | error e => simp [hacc, Except.bind] at h
      | ok accum' =>
        simp only [hacc, Except.bind] at h ⊢
        exact digitsUpTo_of_exact h

/-- As many digits as there may be. -/
theorem digitsPlus_digits {radix : Radix} {ds : List Char} {digits : List ℕ} (rest : List Char)
    (hne : digits ≠ []) (h : ds.map radix.dig = digits.map some) (hfits : I.Fits (valueOf radix.toNat digits)) :
    digitsPlus I radix digits.length (ds ++ rest) = .ok (some (valueOf radix.toNat digits, rest)) := by
  match ds, digits, hne, h with
  | [], d :: digits, _, h => cases h
  | c :: ds, d :: digits, _, h =>
    simp only [List.map_cons, List.cons.injEq] at h
    have hd : I.Fits d := hfits.mono <| by
      rw [valueOf_cons]
      exact (Nat.le_mul_of_pos_right _ (Nat.pow_pos (by have := one_lt_toNat radix; omega))).trans
        (Nat.le_add_right ..)
    have hloop := digitsExactLoop_digits rest hd h.2
    rw [← valueOf_cons, checked_of_fits hfits] at hloop
    simp only [List.cons_append, digitsPlus, h.1, List.length_cons, Nat.add_sub_cancel]
    exact digitsUpTo_of_exact hloop

theorem escapeC_digit {c : Char} (h : (Radix.oct.dig c).isSome = true) (s : List Char) :
    escapeC C I (c :: s) = mapChr C (digitsPlus I .oct 3 (c :: s)) := by
  rw [escapeC.eq_def]
  dsimp only
  split <;> first | rfl | exact absurd h (by decide)

theorem scanC_escape (s : List Char) : scanC C I ('\\' :: s) = escapeC C I s := rfl

theorem scanC_plain {c : Char} (hc : printable c) (hb : c ≠ '\\') (s : List Char) :
    scanC C I (c :: s) = .ok (some (fromChar C c, s)) := by
  simp only [scanC, if_pos hc]

theorem fromChar_ofNat {c : C.Chr} {k : ℕ} (hk : c.val = k) : chrUnsafe C k = c := by
  apply Fin.ext
  rw [chrUnsafe, ← hk]
  exact Nat.mod_eq_of_lt c.isLt

/-- **What `toCString` writes is read back**, in front of any text. -/
theorem scanC_toCString (c : C.Chr) :
    ∃ t, toCString c = .ok t ∧ ∀ rest, scanC C I (t ++ rest) = .ok (some (c, rest)) := by
  have hmax := C.numChars_le
  have hlt := c.isLt
  have hread (rest : List Char) : readAs C I c.val rest = .ok (some (c, rest)) := by
    rw [readAs_of_fits (fits_chr c), chrOpt_val]
    rfl
  have hletter {l : Char} {k : ℕ} (hk : c.val = k)
      (hl : ∀ s, escapeC C I (l :: s) = .ok (some (chrUnsafe C k, s))) :
      ∃ t, (Except.ok ['\\', l] : Except Exn _) = .ok t ∧
        ∀ rest, scanC C I (t ++ rest) = .ok (some (c, rest)) := by
    refine ⟨_, rfl, fun rest => ?_⟩
    rw [← fromChar_ofNat hk]
    exact hl rest
  rw [toCString]
  split
  next hprint =>
    split
    iterate 4 next h => exact hletter h fun _ => rfl
    next hb _ _ _ =>
      obtain ⟨hprint', hnat⟩ := hprint.printable
      refine ⟨_, rfl, fun rest => ?_⟩
      rw [List.singleton_append, scanC_plain hprint' (ofNat_ne hprint hb), fromChar, hnat, fromChar_ofNat rfl]
  next =>
    split
    iterate 7 next h => exact hletter h fun _ => rfl
    split
    next h =>
      obtain ⟨ds, digits, hpad, hmap, hlen, hvalue⟩ := padLeft_spec .oct c.val 3 (by omega)
        (by simp only [Radix.toNat]; omega)
      refine ⟨'\\' :: ds, by rw [hpad]; rfl, fun rest => ?_⟩
      have hplus := digitsPlus_digits (I := I) rest (by rintro rfl; cases hlen) hmap (hvalue.symm ▸ fits_chr c)
      rw [hlen, hvalue] at hplus
      clear hpad hvalue
      match ds, digits, hlen, hmap with
      | [], _ :: _, _, hmap => cases hmap
      | d :: ds, _ :: _, _, hmap =>
        rw [List.cons_append, scanC_escape, List.cons_append,
          escapeC_digit (Option.isSome_of_mem (List.cons.inj hmap).1), ← List.cons_append, hplus, ← hread rest]
        rw [readAs, checked_of_fits (fits_chr c)]
        rfl
    next =>
      obtain ⟨u, num, ds, digits, hu, huni, hmap, rfl, hvalue⟩ := unicodeEscape_spec (k := c.val) (by omega)
      refine ⟨_, huni, fun rest => ?_⟩
      rw [← hread rest, ← hvalue, show 16 = Radix.hex.toNat from rfl, ← mapChr_digits rest hmap]
      simp only [List.mem_cons, Prod.mk.injEq, List.not_mem_nil, or_false] at hu
      obtain ⟨rfl, hlen⟩ | ⟨rfl, hlen⟩ := hu <;> rw [hlen] <;> rfl

theorem toCString_reads (cs : List C.Chr) :
    ∃ texts, cs.mapM toCString = .ok texts ∧ Reads (scanC C I) texts.flatten cs [] := by
  obtain ⟨texts, hmap, -, hreads⟩ := reads_texts toCString (fun _ => True) trivial rfl
    (fun c => by
      obtain ⟨t, ht, hscan⟩ := scanC_toCString (I := I) c
      exact ⟨t, ht, fun rest _ => ⟨trivial, hscan rest⟩⟩) cs
  exact ⟨texts, hmap, hreads⟩

end Back

/-! ## When the scanner is right -/

section Right

variable (C : PreChar) (I : DefaultInt)

/-- **The scanner is right** of a text: from each way to see in it gaps, what denotes a code, and gaps, the
character of the code is read, if there is one, and all of the gaps; and nothing is read of an escape that is
not complete. -/
def ScansRight (s : List Char) : Prop :=
  (∀ g t g' rest k, s = g ++ (t ++ (g' ++ rest)) → Gaps g → Denotes t k → Gaps g' → ¬ StartsGap rest →
    scan C I s = .ok ((chrOpt C k).map fun c => (c, rest))) ∧
  ∀ g u, s = g ++ u → Gaps g → Incomplete u → scan C I s = .ok none

/-- **The texts that the scanner is right of**: their codes are `int`s, and no gap is after an escape of a
character. -/
def Scannable (s : List Char) : Prop :=
  (∀ g e k rest, s = g ++ ('\\' :: e ++ rest) → Gaps g → Escape e k → I.Fits k) ∧
  ∀ g e g' rest k, s = g ++ ('\\' :: e ++ (g' ++ rest)) → Gaps g → Escape e k → Gaps g' → ¬ StartsGap rest →
    k < C.numChars → g' = []

variable {C I} {s : List Char}

theorem ScansRight.scannable (h : ScansRight C I s) : Scannable C I s := by
  constructor
  · intro g e k rest hs hg he
    obtain ⟨g', rest, rfl, hg', hrest⟩ := exists_gaps rest
    have hright := h.1 g _ g' rest k hs hg (.escape he) hg' hrest
    by_contra hfits
    rw [hs, scan_escape hg he, readAs_of_not_fits hfits] at hright
    cases hright
  · intro g e g' rest k hs hg he hg' hrest hk
    have hright := h.1 g _ g' rest k hs hg (.escape he) hg' hrest
    by_cases hfits : I.Fits k
    · rw [hs, scan_escape hg he, readAs_of_fits hfits, chrOpt, dif_pos hk] at hright
      simpa using hright
    · rw [hs, scan_escape hg he, readAs_of_not_fits hfits] at hright
      cases hright

theorem Scannable.scansRight (h : Scannable C I s) : ScansRight C I s := by
  refine ⟨fun g t g' rest k hs hg ht hg' hrest => ?_, ?_⟩
  · cases ht with
    | plain hc hb hq =>
      rw [hs, scan_plain hg hc hb hq, formatSequences_gaps hg' hrest, chrOpt_plain hc]
      rfl
    | escape he =>
      rw [hs, scan_escape hg he, readAs_of_fits (h.1 g _ k _ hs hg he)]
      by_cases hk : k < C.numChars
      · rw [h.2 g _ g' rest k hs hg he hg' hrest hk, List.nil_append]
      · rw [chrOpt, dif_neg hk]
        rfl
  · rintro g u rfl hg hu
    exact scan_incomplete hg hu

/-- **The escapes of characters.**  What is written of the characters of a list is read back, by either scanner,
with any integers.  The scanner of a text is right but for the codes that are no `int`, which are an overflow,
and for the gaps after an escape, which stay. -/
theorem scan_correct_iff (C : PreChar) (I : DefaultInt) :
    (∀ cs : List C.Chr, ∃ texts, cs.mapM toString = .ok texts ∧ Reads (scan C I) texts.flatten cs []) ∧
    (∀ cs : List C.Chr, ∃ texts, cs.mapM toCString = .ok texts ∧ Reads (scanC C I) texts.flatten cs []) ∧
    ∀ s, ScansRight C I s ↔ Scannable C I s :=
  ⟨toString_reads, toCString_reads, fun _ => ⟨ScansRight.scannable, Scannable.scansRight⟩⟩

/-- **A code that is no `int`, and a gap after an escape**: the first is an overflow, the second stays. -/
theorem scan_wrong : scan .char8 .int32 "\\UFFFFFFFF".toList = .error .overflow ∧
    scan .char8 .int32 "\\n\\ \\".toList = .ok (some (chrUnsafe .char8 10, "\\ \\".toList)) ∧
    ¬ ScansRight .char8 .int32 "\\UFFFFFFFF".toList ∧ ¬ ScansRight .char8 .int32 "\\n\\ \\".toList := by
  have hcode : Escape "UFFFFFFFF".toList (valueOf 16 (List.replicate 8 15)) :=
    @Escape.unicode _ (List.replicate 8 'F') _ (by decide) (by decide)
  have hfits : ¬ DefaultInt.int32.Fits (valueOf 16 (List.replicate 8 15)) := by decide
  have hline : Escape ['n'] 10 := .letter (by decide)
  have hgap : Gaps "\\ \\".toList := @Gaps.cons [' '] [] (by decide)
    (fun c hc => by cases List.mem_singleton.mp hc; rfl) .nil
  refine ⟨?_, ?_, fun h => hfits ?_, fun h => ?_⟩
  · exact (scan_escape .nil hcode []).trans (readAs_of_not_fits hfits [])
  · exact (scan_escape .nil hline "\\ \\".toList).trans (readAs_of_lt (by decide) _)
  · exact h.scannable.1 [] _ _ [] rfl .nil hcode
  · have := h.scannable.2 [] _ _ [] _ rfl .nil hline hgap (by rintro ⟨_, _, h, -⟩; cases h) (by decide)
    cases this

end Right

end MLton.CharFn
