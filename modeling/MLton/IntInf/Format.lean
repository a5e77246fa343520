import MLton.IntInf.Numeral
import MLton.IntInf.Runtime

/-!
# IntInf/Format — the text of an integer, and reading it back

A fixnum is formatted digit by digit into a buffer, any other integer by the library of multiple-precision
integers, which is a parameter (`MpzGetStr`).  Either way the text is a sign and the digits of the magnitude,
and `scan` reads it back, with all of the text after it: but not a hexadecimal `0` in front of an `x` and a
digit (`scan_correct`).
-/

namespace MLton.IntInf

open BigInt

/-- `digitToChar`. -/
def digitToChar (n : ℕ) : Char := "0123456789ABCDEF".toList.getD n '0'

/-- The digits of a natural number, the most significant first. -/
def digitsText (radix : Radix) (n : ℕ) : List Char :=
  if n = 0 then ['0'] else (Nat.digits radix.toNat n).reverse.map digitToChar

/-- The digits of a number, by its last one. -/
theorem digitsText_eq (radix : Radix) (n : ℕ) : digitsText radix n =
    (if n / radix.toNat = 0 then [] else digitsText radix (n / radix.toNat)) ++
      [digitToChar (n % radix.toNat)] := by
  have hbase := one_lt_toNat radix
  by_cases hlt : n < radix.toNat
  · rw [Nat.div_eq_of_lt hlt, if_pos rfl, Nat.mod_eq_of_lt hlt, digitsText]
    split
    · next h0 =>
      rw [h0]
      rfl
    · next h0 =>
      rw [Nat.digits_of_lt _ _ h0 hlt]
      rfl
  · have hpos : n / radix.toNat ≠ 0 := (Nat.div_pos (by omega) (by omega)).ne'
    rw [if_neg hpos, digitsText, digitsText, if_neg hpos, if_neg (by omega), Nat.digits_def' hbase (by omega : 0 < n)]
    simp

/-- A number has no more digits than bits. -/
theorem length_digitsText_le (radix : Radix) {n bits : ℕ} (hbits : 0 < bits) (h : n < 2 ^ bits) :
    (digitsText radix n).length ≤ bits := by
  rw [digitsText]
  split
  · exact hbits
  · rw [List.length_map, List.length_reverse]
    refine (Nat.digits_length_le_iff (one_lt_toNat radix) _).mpr ?_
    exact h.trans_le (Nat.pow_le_pow_left (one_lt_toNat radix) _)

/-! ## Fixnums -/

section Small

/-- The `loop` of `Int.fmt`, on what is left of the negative of the magnitude; the buffer from the digit
written last. -/
def fmtLoop (radix : Radix) (q : ℤ) (buf : List Char) : List Char :=
  let buf := digitToChar (-(q.tmod radix.toNat)).toNat :: buf
  let q' := q.tdiv radix.toNat
  if q' = 0 then buf else fmtLoop radix q' buf
termination_by q.natAbs
decreasing_by
  rw [Int.natAbs_tdiv, Int.natAbs_natCast]
  refine Nat.div_lt_self (Int.natAbs_pos.mpr ?_) (one_lt_toNat radix)
  rintro rfl
  simp_all [q']

/-- `Int.fmt`. -/
def smallFmt (radix : Radix) (n : ℤ) : List Char :=
  let digits := fmtLoop radix (if n < 0 then n else -n) []
  if n < 0 then '~' :: digits else digits

theorem fmtLoop_neg (radix : Radix) (n : ℕ) (buf : List Char) :
    fmtLoop radix (-n) buf = digitsText radix n ++ buf := by
  induction n using Nat.strong_induction_on generalizing buf with
  | _ n ih =>
    have hbase := one_lt_toNat radix
    have hmod : (-((-(n : ℤ)).tmod radix.toNat)).toNat = n % radix.toNat := by
      rw [Int.neg_tmod, neg_neg, ← Int.ofNat_tmod, Int.toNat_natCast]
    have hdiv : (-(n : ℤ)).tdiv radix.toNat = -((n / radix.toNat : ℕ) : ℤ) := by
      rw [Int.neg_tdiv, ← Int.ofNat_tdiv]
    rw [fmtLoop, hmod, hdiv]
    have hdigits := digitsText_eq radix n
    by_cases hzero : n / radix.toNat = 0
    · rw [if_pos hzero, List.nil_append] at hdigits
      rw [if_pos (by omega), hdigits]
      rfl
    · have hlt : n / radix.toNat < n := Nat.div_lt_self (Nat.pos_of_ne_zero fun h0 => hzero (by rw [h0, Nat.zero_div])) hbase
      rw [if_neg hzero] at hdigits
      rw [if_neg (by omega), ih _ hlt, hdigits, List.append_assoc]
      rfl

theorem smallFmt_eq (radix : Radix) (n : ℤ) :
    smallFmt radix n = (if n < 0 then ['~'] else []) ++ digitsText radix n.natAbs := by
  have hloop := fmtLoop_neg radix n.natAbs []
  rw [List.append_nil] at hloop
  rw [smallFmt]
  split
  next hneg =>
    rw [← hloop, show -(n.natAbs : ℤ) = n by omega]
    rfl
  next hpos =>
    rw [← hloop, show -(n.natAbs : ℤ) = -n by omega]
    rfl

end Small

/-! ## Digits -/

section Digits

theorem dig_digitToChar {radix : Radix} {d : ℕ} (h : d < radix.toNat) : radix.dig (digitToChar d) = some d := by
  cases radix <;> simp only [Radix.toNat] at h <;> interval_cases d <;> rfl

/-- The digits of a number are digits, of its value. -/
theorem map_digitsText (radix : Radix) (n : ℕ) :
    ∃ digits, (digitsText radix n).map radix.dig = digits.map some ∧ valueOf radix.toNat digits = n ∧
      digitsText radix n ≠ [] := by
  rw [digitsText]
  split
  next h0 => exact ⟨[0], by cases radix <;> rfl, by simp [valueOf, h0], by simp⟩
  next h0 =>
    refine ⟨(Nat.digits radix.toNat n).reverse, ?_, ?_, by simpa [Nat.digits_ne_nil_iff_ne_zero] using h0⟩
    · rw [List.map_map]
      refine List.map_congr_left fun d hd => dig_digitToChar ?_
      exact Nat.digits_lt_base (one_lt_toNat radix) (List.mem_reverse.mp hd)
    · rw [valueOf, List.reverse_reverse, Nat.ofDigits_digits]

end Digits

/-! ## All integers -/

section Format

variable {w : Widths}

/-- **The library of multiple-precision integers**, as far as it formats: a negative base asks for upper-case
digits. -/
structure MpzGetStr (t : Target) where
  get_str : ℤ → MpzStruct → List Char
  get_str_ofInt : ∀ (radix : Radix) i, get_str (-radix.toNat) (.ofInt t i) =
    (if i < 0 then ['-'] else []) ++ digitsText radix i.natAbs

/-- The library that formats the integers that the structs stand for. -/
def MpzGetStr.reference (t : Target) : MpzGetStr t where
  get_str base m :=
    let i := m.value t
    (if i < 0 then ['-'] else []) ++
      digitsText (if base = -2 then .bin else if base = -8 then .oct else if base = -10 then .dec else .hex)
        i.natAbs
  get_str_ofInt radix i := by cases radix <;> simp [Radix.toNat]

variable (mpz : MpzGetStr w.limbs)

/-- `IntInf_strop`, of `mpz_get_str`. -/
def toStringOp (arg : BigInt) (base : ℤ) : List Char :=
  match mpz.get_str (-base) (fillIntInfArg arg) with
  | '-' :: str => '~' :: str
  | str => str

/-- `mkBigCvt`, by which `fmt` is defined. -/
def fmt (radix : Radix) (arg : BigInt) : List Char :=
  if arg.isSmall then smallFmt radix (dropTag arg.toWord) else toStringOp mpz arg radix.toNat

variable {mpz}

/-- **The text of an integer.** -/
theorem fmt_ofInt (radix : Radix) (i : ℤ) :
    fmt mpz radix (w.ofInt i) = (if i < 0 then ['~'] else []) ++ digitsText radix i.natAbs := by
  by_cases hfix : w.words.IsFixnum i
  · rw [Widths.ofInt_fixnum hfix, fmt, if_pos (isSmall_fixnum i), toWord, dropTag_fixnum, smallFmt_eq]
  · have hvector : ¬ w.limbs.IsFixnum i := by
      have hle : w.limbs.bound ≤ w.words.bound :=
        Nat.pow_le_pow_right (by omega) (by have := w.objptr_eq; simp only [Widths.limbs, Widths.words]; omega)
      unfold Target.IsFixnum at hfix ⊢
      omega
    have hbig : w.ofInt i = BigInt.ofInt w.limbs i := by
      rw [Widths.ofInt_big hfix, BigInt.ofInt_big hvector]
    have hsmall : (w.ofInt i).isSmall = false := by
      rw [Widths.ofInt_big hfix]
      rfl
    rw [fmt, hsmall, toStringOp, hbig, fillIntInfArg_ofInt, mpz.get_str_ofInt]
    simp only [Bool.false_eq_true, if_false]
    by_cases hneg : i < 0
    · simp [hneg]
    · have hhead : ∀ t, digitsText radix i.natAbs ≠ '-' :: t := by
        intro t ht
        obtain ⟨digits, hds, -, -⟩ := map_digitsText radix i.natAbs
        rw [ht, List.map_cons, dig_sign (by simp)] at hds
        cases digits <;> simp at hds
      simp only [if_neg hneg, List.nil_append]
end Format

/-! ## The round trip -/

section RoundTrip

variable {w : Widths} {radix : Radix}

/-- A hexadecimal `0` in front of an `x` and a digit. -/
def Prefixes (radix : Radix) (i : ℤ) (rest : List Char) : Prop :=
  radix = .hex ∧ i = 0 ∧ ∃ c t, rest = c :: t ∧ (c = 'x' ∨ c = 'X') ∧ ∃ d ∈ t.head?, Radix.hex.dig d ≠ none

theorem leading_eq_nil_iff {dig : Char → Option ℕ} {t : List Char} :
    leading dig t = [] ↔ ∀ c ∈ t.head?, dig c = none := by
  cases t with
  | nil => simp [leading]
  | cons c t => cases hd : dig c <;> simp [leading, hd]

/-- The digits of a number in front of what is no digit. -/
theorem numberText_digitsText (radix : Radix) (n : ℕ) {rest : List Char} (h : leading radix.dig rest = []) :
    numberText radix (digitsText radix n ++ rest) = some ((n : ℤ), rest) := by
  obtain ⟨digits, hds, hvalue, hne⟩ := map_digitsText radix n
  obtain ⟨hleading, hafter⟩ := leading_append rest hds
  rw [numberText, if_neg (leading_ne_nil rest hne hds), hleading, hafter, h, List.append_nil, hvalue,
    after_of_leading_nil h]

/-- What is read is in front of what is left. -/
theorem numberText_ne (radix : Radix) (c : Char) (t : List Char) (i : ℤ) :
    numberText radix t ≠ some (i, c :: t) := by
  intro h
  obtain ⟨ds, digits, ht, -⟩ := numberText_sound h
  have := congrArg List.length ht
  simp only [List.nil_append, List.length_append, List.length_cons] at this
  omega

theorem hexText_digitsText (n : ℕ) {rest : List Char} (h : leading Radix.hex.dig rest = []) :
    hexText (digitsText .hex n ++ rest) = some ((n : ℤ), rest) ↔ ¬ Prefixes .hex n rest := by
  obtain ⟨digits, hds, hvalue, hne⟩ := map_digitsText .hex n
  obtain heq | ⟨c, t, hzero, hrest, hx, ht, heq⟩ := hexText_cases rest hne hds
  · refine iff_of_true (heq.trans (numberText_digitsText .hex n h)) ?_
    rintro ⟨-, hn, c, t, rfl, hx, d, hd, hdig⟩
    obtain rfl : n = 0 := by omega
    have ht : leading Radix.hex.dig t ≠ [] := fun hnil => hdig (leading_eq_nil_iff.mp hnil d hd)
    rw [numberText_digitsText .hex 0 h] at heq
    exact numberText_ne .hex c t _ ((if_pos ⟨hx, ht⟩).symm.trans heq)
  · refine iff_of_false ?_ (fun hno => hno ?_)
    · rw [heq, hrest]
      exact numberText_ne .hex c t n
    · have hn : n = 0 := by
        rw [hzero] at hds
        match digits, hds with
        | [d], hds =>
          simp only [List.map_cons, List.cons.injEq] at hds
          obtain rfl : d = 0 := (Option.some.inj hds.1).symm
          rw [← hvalue]
          rfl
      obtain ⟨d, hd, hdig⟩ : ∃ d ∈ t.head?, Radix.hex.dig d ≠ none := by
        by_contra! hnone
        exact ht (leading_eq_nil_iff.mpr hnone)
      exact ⟨rfl, by omega, c, t, hrest, hx, d, hd, hdig⟩

theorem unsignedText_digitsText (radix : Radix) (n : ℕ) {rest : List Char}
    (h : leading radix.dig rest = []) :
    unsignedText radix (digitsText radix n ++ rest) = some ((n : ℤ), rest) ↔ ¬ Prefixes radix n rest := by
  have hnum := numberText_digitsText radix n h
  cases radix with
  | hex => exact hexText_digitsText n h
  | bin => exact iff_of_true hnum (fun hpre => absurd hpre.1 (by decide))
  | oct => exact iff_of_true hnum (fun hpre => absurd hpre.1 (by decide))
  | dec => exact iff_of_true hnum (fun hpre => absurd hpre.1 (by decide))

/-- **A sign and digits are read back**, and what is after them is left. -/
theorem scanText_digitsText (radix : Radix) (i : ℤ) {rest : List Char} (h : ∀ c ∈ rest.head?, radix.dig c = none) :
    scanText radix ((if i < 0 then ['~'] else []) ++ digitsText radix i.natAbs ++ rest) = some (i, rest) ↔
      ¬ Prefixes radix i rest := by
  obtain ⟨digits, hds, -, hne⟩ := map_digitsText radix i.natAbs
  obtain ⟨c, t, hct, hc⟩ := exists_digit rest (.inl rfl) hne hds
  rw [List.nil_append] at hct
  have hscan : scanText radix ([] ++ ((if i < 0 then ['~'] else []) ++ c :: t)) =
      (unsignedText radix (c :: t)).map fun x =>
        (if (if i < 0 then ['~'] else []) ∈ [['-'], ['~']] then -x.1 else x.1, x.2) :=
    scanText_signed t (by simp) (by split <;> simp) hc
  have huns := unsignedText_digitsText radix i.natAbs (leading_eq_nil_iff.mpr h)
  have hpre : Prefixes radix (i.natAbs : ℤ) rest ↔ Prefixes radix i rest := by
    simp [Prefixes]
  rw [List.append_assoc, hct]
  rw [hpre, hct] at huns
  rw [← huns]
  rw [List.nil_append] at hscan
  rw [hscan, Option.map_eq_some_iff]
  have hsgn : (if i < 0 then ['~'] else []) ∈ [['-'], ['~']] ↔ i < 0 := by
    split <;> simp [*]
  simp only [hsgn, Prod.mk.injEq]
  constructor
  · rintro ⟨⟨n, rest'⟩, hx, hn, rfl⟩
    have hnat : n = i.natAbs := by split at hn <;> omega
    rw [hx, hnat]
  · intro hx
    refine ⟨_, hx, ?_, rfl⟩
    split <;> omega

/-- **The text of an integer is read back**, and what is after it is left. -/
theorem scanText_fmt (mpz : MpzGetStr w.limbs) (radix : Radix) (i : ℤ) {rest : List Char}
    (h : ∀ c ∈ rest.head?, radix.dig c = none) :
    scanText radix (fmt mpz radix (w.ofInt i) ++ rest) = some (i, rest) ↔ ¬ Prefixes radix i rest := by
  rw [fmt_ofInt]
  exact scanText_digitsText radix i h

theorem scan_fmt {α : Type} {size : α → ℕ} (mpz : MpzGetStr w.limbs) (radix : Radix)
    (cread : Reader size Char) {s : α} {i : ℤ} {rest : List Char}
    (htext : cread.text s = fmt mpz radix (w.ofInt i) ++ rest) (h : ∀ c ∈ rest.head?, radix.dig c = none) :
    (∃ s', (scan w radix cread).read s = some (i, s') ∧ cread.text s' = rest) ↔ ¬ Prefixes radix i rest := by
  have hreads : cread.Reads (scan w radix cread) (scanText radix) := reads_scan
  have hscan := hreads s
  rw [← scanText_fmt mpz radix i h, ← htext, ← hscan]
  simp [Option.map_eq_some_iff, Prod.exists]

/-- **The text of an integer is read back, and what is read is the longest numeral.**  Only the hexadecimal `0`
in front of an `x` and a digit is read as a prefix; and no word of a chunk wraps. -/
theorem scan_correct {α : Type} {size : α → ℕ} (w : Widths) (mpz : MpzGetStr w.limbs) (radix : Radix)
    (cread : Reader size Char) (s : α) :
    (∀ i rest, cread.text s = fmt mpz radix (w.ofInt i) ++ rest → (∀ c ∈ rest.head?, radix.dig c = none) →
      ((∃ s', (scan w radix cread).read s = some (i, s') ∧ cread.text s' = rest) ↔
        ¬ Prefixes radix i rest)) ∧
    (match (scan w radix cread).read s with
    | none => ∀ p rest i, cread.text s = p ++ rest → ¬ Numeral radix p i
    | some (i, s') => ∃ p, cread.text s = p ++ cread.text s' ∧ Numeral radix p i ∧
        ∀ p' rest j, cread.text s = p' ++ rest → Numeral radix p' j → p'.length ≤ p.length) ∧
    ∀ d next, (toDigR radix.dig cread).read s = some (d, next) →
      chunkFits w radix.toNat (toDigR radix.dig cread) (digitsPerChunk w radix - 1) radix.toNat d next :=
  ⟨fun _ _ htext h => scan_fmt mpz radix cread htext h, scan_grammar w radix cread s,
    fun _ _ h => (chunkLoop_digitsPerChunk h).2⟩

theorem text_listReader : ∀ s, listReader.text s = s
  | [] => Reader.text_of_none rfl
  | c :: s => by rw [Reader.text_of_some (rfl : listReader.read (c :: s) = some (c, s)), text_listReader s]

/-- The text of `~42` is read back in front of a space. -/
theorem scan_correct_decimal : ∃ s', (scan .wide .dec listReader).read
      (fmt (.reference Widths.wide.limbs) .dec (Widths.wide.ofInt (-42)) ++ [' ']) = some (-42, s') ∧
    listReader.text s' = [' '] :=
  ((scan_correct .wide (.reference _) .dec listReader _).1 (-42) [' '] (text_listReader _)
    (fun c hc => by cases hc; rfl)).mpr
    (fun hpre => absurd hpre.1 (by decide))

/-- The text of the hexadecimal `0` is not read back in front of `x1`, which does not begin with a digit. -/
theorem scan_fmt_zero : (∀ c ∈ ['x', '1'].head?, Radix.hex.dig c = none) ∧
    ¬ ∃ s', (scan .wide .hex listReader).read
        (fmt (.reference Widths.wide.limbs) .hex (Widths.wide.ofInt 0) ++ ['x', '1']) = some (0, s') ∧
      listReader.text s' = ['x', '1'] := by
  have hdig : ∀ c ∈ ['x', '1'].head?, Radix.hex.dig c = none := fun c hc => by cases hc; rfl
  refine ⟨hdig, fun hread => ?_⟩
  refine (scan_fmt (.reference _) .hex listReader (text_listReader _) hdig).mp hread ⟨rfl, rfl, 'x', ['1'], rfl,
    .inl rfl, '1', rfl, by decide⟩

end RoundTrip

end MLton.IntInf
