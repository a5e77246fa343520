import MLton.IntInf.Scan

/-!
# IntInf/ScanText — what `scan` does to the text

What a reader of characters has yet to read is a text, and a reader stacked on it is a function of that
text.  The digits in front of a text are read in chunks, whose arithmetic does not wrap (`chunkFits`), and
their value is put together from those of the chunks.
-/

namespace MLton.IntInf

variable {α : Type} {size : α → ℕ}

/-! ## Texts -/

section Text

variable {cread : Reader size Char} {s s' : α} {c : Char}

theorem Reader.text_of_none (h : cread.read s = none) : cread.text s = [] := by
  rw [Reader.text]
  split
  · rfl
  next h' => cases h.symm.trans h'

theorem Reader.text_of_some (h : cread.read s = some (c, s')) : cread.text s = c :: cread.text s' := by
  rw [Reader.text]
  split
  next h' => cases h.symm.trans h'
  next h' =>
    cases h.symm.trans h'
    rfl

theorem text_skipWS (cread : Reader size Char) (s : α) :
    cread.text (skipWS cread s) = (cread.text s).dropWhile isSpace := by
  induction s using skipWS.induct cread with
  | case1 s h =>
    have hskip : skipWS cread s = s := by rw [skipWS, h]
    rw [hskip, Reader.text_of_none h]
    rfl
  | case2 s c s' h hc ih =>
    have hskip : skipWS cread s = skipWS cread s' := by
      rw [skipWS, h]
      exact if_pos hc
    rw [hskip, ih, Reader.text_of_some h, List.dropWhile_cons_of_pos hc]
  | case3 s c s' h hc =>
    have hskip : skipWS cread s = s := by
      rw [skipWS, h]
      exact if_neg hc
    rw [hskip, Reader.text_of_some h, List.dropWhile_cons_of_neg hc]

end Text

/-- A reader that is a function of the text. -/
def Reader.Reads {β : Type} (cread : Reader size Char) (r : Reader size β)
    (f : List Char → Option (β × List Char)) : Prop :=
  ∀ s, (r.read s).map (Prod.map id cread.text) = f (cread.text s)

/-! ## Digits -/

/-- The digits in front of a text. -/
def leading (dig : Char → Option ℕ) : List Char → List ℕ
  | [] => []
  | c :: t =>
      match dig c with
      | none => []
      | some d => d :: leading dig t

/-- The text after the digits in front of it. -/
def after (dig : Char → Option ℕ) : List Char → List Char
  | [] => []
  | c :: t =>
      match dig c with
      | none => c :: t
      | some _ => after dig t

/-- The value of digits, the most significant first. -/
def valueOf (base : ℕ) (ds : List ℕ) : ℕ := Nat.ofDigits base ds.reverse

section Digits

variable {dig : Char → Option ℕ} {base : ℕ}

theorem after_of_leading_nil : ∀ {t : List Char}, leading dig t = [] → after dig t = t
  | [], _ => rfl
  | c :: t, h => by
    cases hd : dig c with
    | none => simp [after, hd]
    | some d => simp [leading, hd] at h

@[simp] theorem valueOf_nil : valueOf base [] = 0 := rfl

theorem valueOf_append (ds ds' : List ℕ) :
    valueOf base (ds ++ ds') = valueOf base ds * base ^ ds'.length + valueOf base ds' := by
  rw [valueOf, List.reverse_append, Nat.ofDigits_append, List.length_reverse]
  simp only [valueOf]
  ring

theorem valueOf_cons (d : ℕ) (ds : List ℕ) : valueOf base (d :: ds) = d * base ^ ds.length + valueOf base ds := by
  rw [← List.singleton_append, valueOf_append]
  simp [valueOf]

theorem valueOf_lt (hbase : 1 < base) {ds : List ℕ} (h : ∀ d ∈ ds, d < base) :
    valueOf base ds < base ^ ds.length := by
  have := Nat.ofDigits_lt_base_pow_length hbase (l := ds.reverse) (by simpa using h)
  simpa [valueOf] using this

theorem digR_of_none {cread : Reader size Char} {s : α} (h : (toDigR dig cread).read s = none) :
    leading dig (cread.text s) = [] := by
  cases hread : cread.read s with
  | none => rw [Reader.text_of_none hread, leading]
  | some x =>
    cases hd : dig x.1 with
    | none => simp [Reader.text_of_some hread, leading, hd]
    | some d => simp [toDigR, hread, hd] at h

theorem digR_of_some {cread : Reader size Char} {s s' : α} {d : ℕ}
    (h : (toDigR dig cread).read s = some (d, s')) :
    leading dig (cread.text s) = d :: leading dig (cread.text s') ∧
      after dig (cread.text s) = after dig (cread.text s') := by
  cases hread : cread.read s with
  | none => simp [toDigR, hread] at h
  | some x =>
    cases hd : dig x.1 with
    | none => simp [toDigR, hread, hd] at h
    | some d' =>
      simp only [toDigR, hread, hd, Option.some.injEq, Prod.mk.injEq] at h
      obtain ⟨rfl, rfl⟩ := h
      simp [Reader.text_of_some hread, leading, after, hd]

theorem leading_lt (hdig : ∀ c d, dig c = some d → d < base) :
    ∀ {t : List Char}, ∀ d ∈ leading dig t, d < base
  | [], _, h => by simp [leading] at h
  | c :: t, d, h => by
    cases hd : dig c with
    | none => simp [leading, hd] at h
    | some d' =>
      simp only [leading, hd, List.mem_cons] at h
      obtain rfl | h := h
      · exact hdig c d hd
      · exact leading_lt hdig d h

end Digits

/-! ## Chunks -/

section Chunks

variable {w : Widths} {dig : Char → Option ℕ} {base : ℕ} {cread : Reader size Char}

/-- Every product and sum of a chunk's `loop` fits in a word. -/
def chunkFits (w : Widths) (base : ℕ) (dread : Reader size ℕ) : ℕ → ℕ → ℕ → α → Prop
  | 0, _, _, _ => True
  | left + 1, shift, chunk, s =>
      match dread.read s with
      | none => True
      | some (dig, s') =>
          base * shift < 2 ^ w.objptr ∧ base * chunk < 2 ^ w.objptr ∧ base * chunk + dig < 2 ^ w.objptr ∧
            chunkFits w base dread left (base * shift) (base * chunk + dig) s'

/-- What a chunk is of the digits in front of a text. -/
structure ChunkOf (base : ℕ) (dig : Char → Option ℕ) (left shift chunk : ℕ) (t : List Char) (c : Chunk)
    (t' : List Char) : Prop where
  leading_eq : leading dig t' = (leading dig t).drop left
  after_eq : after dig t' = after dig t
  more_eq : c.more = decide (left ≤ (leading dig t).length)
  shift_eq : c.shift = shift * base ^ ((leading dig t).take left).length
  chunk_eq : c.chunk = chunk * base ^ ((leading dig t).take left).length +
    valueOf base ((leading dig t).take left)

/-- **A chunk is read without wrapping**, if the power of the base that it may reach fits in a word. -/
theorem chunkLoop_spec (hdig : ∀ c d, dig c = some d → d < base) :
    ∀ {left shift chunk : ℕ} {s : α}, chunk < shift → shift * base ^ left < 2 ^ w.objptr →
      chunkFits w base (toDigR dig cread) left shift chunk s ∧
        ChunkOf base dig left shift chunk (cread.text s)
          (chunkLoop w base (toDigR dig cread) left shift chunk s).1
          (cread.text (chunkLoop w base (toDigR dig cread) left shift chunk s).2)
  | 0, shift, chunk, s, _, _ => by
    refine ⟨trivial, ?_⟩
    constructor <;> simp [chunkLoop]
  | left + 1, shift, chunk, s, hlt, hfits => by
    cases hread : (toDigR dig cread).read s with
    | none =>
      have hnil := digR_of_none hread
      rw [chunkFits, chunkLoop, hread]
      refine ⟨trivial, ?_⟩
      constructor <;> simp [hnil]
    | some x =>
      obtain ⟨d, s'⟩ := x
      obtain ⟨hleading, hafter⟩ := digR_of_some hread
      have hd : d < base := leading_lt hdig d (hleading ▸ List.mem_cons_self)
      have hpow : base * shift * base ^ left < 2 ^ w.objptr := by
        rw [pow_succ] at hfits
        calc base * shift * base ^ left = shift * (base ^ left * base) := by ring
          _ < 2 ^ w.objptr := hfits
      have hshift : base * shift < 2 ^ w.objptr :=
        (Nat.le_mul_of_pos_right _ (Nat.pow_pos (by omega))).trans_lt hpow
      have hchunk : base * chunk + d < base * shift :=
        calc base * chunk + d < base * (chunk + 1) := by rw [Nat.mul_add]; omega
          _ ≤ base * shift := Nat.mul_le_mul_left _ hlt
      obtain ⟨ihfits, ih⟩ := chunkLoop_spec hdig (s := s') hchunk hpow
      have hmul : mulWord w base shift = base * shift := Nat.mod_eq_of_lt hshift
      have hadd : addWord w (mulWord w base chunk) d = base * chunk + d := by
        rw [addWord, mulWord, Nat.mod_eq_of_lt (by omega : base * chunk < _), Nat.mod_eq_of_lt (by omega)]
      rw [chunkFits, chunkLoop, hread]
      simp only [hmul, hadd]
      refine ⟨⟨hshift, by omega, by omega, ihfits⟩, ?_⟩
      constructor
      · rw [ih.leading_eq, hleading, List.drop_succ_cons]
      · rw [ih.after_eq, hafter]
      · rw [ih.more_eq, hleading, List.length_cons]
        simp
      · rw [ih.shift_eq, hleading, List.take_succ_cons, List.length_cons, pow_succ]
        ring
      · rw [ih.chunk_eq, hleading, List.take_succ_cons, List.length_cons, valueOf_cons, pow_succ]
        ring

/-- The powers that a chunk may reach fit. -/
theorem pow_digitsPerChunk_lt (w : Widths) (radix : Radix) :
    radix.toNat ^ digitsPerChunk w radix < 2 ^ w.objptr := by
  obtain h | h := w.objptr_eq <;> cases radix <;> simp [digitsPerChunk, Radix.toNat, h]

theorem digitsPerChunk_pos (w : Widths) (radix : Radix) : 0 < digitsPerChunk w radix := by
  obtain h | h := w.objptr_eq <;> cases radix <;> simp [digitsPerChunk, h]

theorem one_lt_toNat (radix : Radix) : 1 < radix.toNat := by
  cases radix <;> decide

end Chunks

/-! ## The digits of a radix -/

theorem toNat_le_of_le {c c' : Char} (h : c ≤ c') : c.toNat ≤ c'.toNat := h

/-- A digit is below the base. -/
theorem dig_lt : ∀ {radix : Radix} (c : Char) (d : ℕ), radix.dig c = some d → d < radix.toNat
  | .bin, c, d, h => by
    simp only [Radix.dig, binDig] at h
    split_ifs at h <;> cases h <;> decide
  | .oct, c, d, h => by
    simp only [Radix.dig, octDig, Option.ite_none_right_eq_some, Option.some.injEq] at h
    obtain ⟨⟨-, hhi⟩, rfl⟩ := h
    have : c.toNat ≤ 55 := toNat_le_of_le hhi
    show c.toNat - 48 < 8
    omega
  | .dec, c, d, h => by
    simp only [Radix.dig, decDig, Option.ite_none_right_eq_some, Option.some.injEq] at h
    obtain ⟨⟨-, hhi⟩, rfl⟩ := h
    have : c.toNat ≤ 57 := toNat_le_of_le hhi
    show c.toNat - 48 < 10
    omega
  | .hex, c, d, h => by
    simp only [Radix.dig, hexDig] at h
    split_ifs at h with hdec hlower hupper
    · cases h
      have : c.toNat ≤ 57 := toNat_le_of_le hdec.2
      show c.toNat - 48 < 16
      omega
    · cases h
      have : c.toNat ≤ 102 := toNat_le_of_le hlower.2
      show c.toNat - 87 < 16
      omega
    · cases h
      have : c.toNat ≤ 70 := toNat_le_of_le hupper.2
      show c.toNat - 55 < 16
      omega

/-- A digit is no white space, no sign and no `x`. -/
theorem dig_space {radix : Radix} {c : Char} (h : isSpace c = true) : radix.dig c = none := by
  simp only [isSpace, List.mem_cons, List.not_mem_nil, or_false, decide_eq_true_eq] at h
  obtain rfl | rfl | rfl | rfl | rfl | rfl := h <;> cases radix <;> decide

theorem dig_sign {radix : Radix} {c : Char} (h : c ∈ ['+', '-', '~', 'x', 'X']) : radix.dig c = none := by
  simp only [List.mem_cons, List.not_mem_nil, or_false] at h
  obtain rfl | rfl | rfl | rfl | rfl := h <;> cases radix <;> decide

/-! ## Unsigned integers -/

section Unsigned

variable {w : Widths} {radix : Radix} {cread : Reader size Char}

/-- A chunk is what the loop makes of no digit yet. -/
theorem chunkLoop_digitsPerChunk {s next : α} {d : ℕ}
    (h : (toDigR radix.dig cread).read s = some (d, next)) :
    chunkLoop w radix.toNat (toDigR radix.dig cread) (digitsPerChunk w radix) 1 0 s =
        chunkLoop w radix.toNat (toDigR radix.dig cread) (digitsPerChunk w radix - 1) radix.toNat d next ∧
      chunkFits w radix.toNat (toDigR radix.dig cread) (digitsPerChunk w radix - 1) radix.toNat d next := by
  obtain ⟨left, hleft⟩ : ∃ left, digitsPerChunk w radix = left + 1 :=
    ⟨_, (Nat.succ_pred_eq_of_pos (digitsPerChunk_pos w radix)).symm⟩
  have hpow := pow_digitsPerChunk_lt w radix
  have hfits : chunkFits w radix.toNat (toDigR radix.dig cread) (digitsPerChunk w radix) 1 0 s :=
    (chunkLoop_spec dig_lt Nat.one_pos (by rwa [Nat.one_mul])).1
  have hbase : radix.toNat < 2 ^ w.objptr := by
    rw [hleft, pow_succ] at hpow
    exact (Nat.le_mul_of_pos_left _ (Nat.pow_pos (by have := one_lt_toNat radix; omega))).trans_lt hpow
  have hd : d < radix.toNat := leading_lt dig_lt d ((digR_of_some h).1 ▸ List.mem_cons_self)
  rw [hleft, chunkFits, h] at hfits
  simp only [Nat.mul_one, Nat.mul_zero, Nat.zero_add] at hfits
  rw [hleft, Nat.add_sub_cancel]
  refine ⟨?_, hfits.2.2.2⟩
  have hshift : mulWord w radix.toNat 1 = radix.toNat := by
    rw [mulWord, Nat.mul_one, Nat.mod_eq_of_lt hbase]
  have hchunk : addWord w (mulWord w radix.toNat 0) d = d := by
    rw [addWord, mulWord, Nat.mul_zero, Nat.zero_mod, Nat.zero_add, Nat.mod_eq_of_lt (by omega)]
  rw [chunkLoop, h]
  simp only [hshift, hchunk]

/-- The chunk that is read in front of a text. -/
theorem chunkR_of_none {s : α} (h : (toChunkR w radix (toDigR radix.dig cread)).read s = none) :
    leading radix.dig (cread.text s) = [] := by
  cases hread : (toDigR radix.dig cread).read s with
  | none => exact digR_of_none hread
  | some x => simp [toChunkR, hread] at h

theorem chunkR_of_some {s s' : α} {c : Chunk}
    (h : (toChunkR w radix (toDigR radix.dig cread)).read s = some (c, s')) :
    leading radix.dig (cread.text s) ≠ [] ∧
      ChunkOf radix.toNat radix.dig (digitsPerChunk w radix) 1 0 (cread.text s) c (cread.text s') := by
  cases hread : (toDigR radix.dig cread).read s with
  | none => simp [toChunkR, hread] at h
  | some x =>
    obtain ⟨d, next⟩ := x
    have hpow : 1 * radix.toNat ^ digitsPerChunk w radix < 2 ^ w.objptr := by
      rw [Nat.one_mul]
      exact pow_digitsPerChunk_lt w radix
    have hspec : ChunkOf radix.toNat radix.dig (digitsPerChunk w radix) 1 0 (cread.text s)
        (chunkLoop w radix.toNat (toDigR radix.dig cread) (digitsPerChunk w radix) 1 0 s).1
        (cread.text (chunkLoop w radix.toNat (toDigR radix.dig cread) (digitsPerChunk w radix) 1 0 s).2) :=
      (chunkLoop_spec dig_lt Nat.one_pos hpow).2
    rw [(chunkLoop_digitsPerChunk hread).1] at hspec
    simp only [toChunkR, hread, Option.some.injEq] at h
    rw [h] at hspec
    exact ⟨by simp [(digR_of_some hread).1], hspec⟩

/-- **The chunks of digits** make the value of the digits. -/
theorem unsLoop_spec (more : Bool) (acc : ℤ) (s : α)
    (hmore : more = false → leading radix.dig (cread.text s) = []) :
    ∃ s', unsLoop (toChunkR w radix (toDigR radix.dig cread)) more acc s =
        (acc * radix.toNat ^ (leading radix.dig (cread.text s)).length +
          valueOf radix.toNat (leading radix.dig (cread.text s)), s') ∧
      cread.text s' = after radix.dig (cread.text s) := by
  induction more, acc, s using unsLoop.induct (toChunkR w radix (toDigR radix.dig cread)) with
  | case1 acc s h =>
    have hnil := chunkR_of_none h
    refine ⟨s, ?_, (after_of_leading_nil hnil).symm⟩
    rw [unsLoop, if_pos rfl, h, hnil]
    simp
  | case2 acc s c s' h ih =>
    obtain ⟨-, hchunk⟩ := chunkR_of_some h
    obtain ⟨s₁, heq, htext⟩ := ih (fun hfalse => by
      rw [hchunk.more_eq, decide_eq_false_iff_not, not_le] at hfalse
      rw [hchunk.leading_eq, List.drop_of_length_le hfalse.le])
    refine ⟨s₁, ?_, htext.trans hchunk.after_eq⟩
    rw [unsLoop, if_pos rfl, h]
    simp only [heq, Prod.mk.injEq, and_true]
    have hsplit := List.take_append_drop (digitsPerChunk w radix) (leading radix.dig (cread.text s))
    have hvalue : valueOf radix.toNat _ = _ := valueOf_append
      ((leading radix.dig (cread.text s)).take (digitsPerChunk w radix))
      ((leading radix.dig (cread.text s)).drop (digitsPerChunk w radix))
    have hlength := congrArg List.length hsplit
    rw [List.length_append] at hlength
    rw [hsplit] at hvalue
    rw [hchunk.leading_eq, hchunk.shift_eq, hchunk.chunk_eq, hvalue, ← hlength, pow_add]
    push_cast
    ring
  | case3 more acc s h =>
    have hnil := hmore (by simpa using h)
    refine ⟨s, ?_, (after_of_leading_nil hnil).symm⟩
    rw [unsLoop, if_neg h, hnil]
    simp

/-- An unsigned integer, of the digits in front of a text. -/
def numberText (radix : Radix) (t : List Char) : Option (ℤ × List Char) :=
  if leading radix.dig t = [] then none
  else some ((valueOf radix.toNat (leading radix.dig t) : ℕ), after radix.dig t)

theorem reads_toUnsR :
    cread.Reads (toUnsR (toChunkR w radix (toDigR radix.dig cread))) (numberText radix) := by
  intro s
  cases h : (toChunkR w radix (toDigR radix.dig cread)).read s with
  | none => simp [toUnsR, numberText, h, chunkR_of_none h]
  | some x =>
    -- The first chunk is added to zero.
    have hread : (toUnsR (toChunkR w radix (toDigR radix.dig cread))).read s =
        some (unsLoop (toChunkR w radix (toDigR radix.dig cread)) true 0 s) := by
      rw [unsLoop, if_pos rfl, h]
      simp [toUnsR, h]
    obtain ⟨s', heq, htext⟩ := unsLoop_spec true 0 s (by simp)
    rw [hread, heq, numberText, if_neg (chunkR_of_some h).1]
    simp [htext]

end Unsigned

/-! ## Signed integers -/

/-- A hexadecimal integer; the `0` of a `0x` that no digit follows is one. -/
def hexText : List Char → Option (ℤ × List Char)
  | '0' :: c :: t =>
      if (c = 'x' ∨ c = 'X') ∧ leading Radix.hex.dig t ≠ [] then numberText .hex t
      else numberText .hex ('0' :: c :: t)
  | t => numberText .hex t

/-- An unsigned integer of a radix. -/
def unsignedText : Radix → List Char → Option (ℤ × List Char)
  | .hex => hexText
  | radix => numberText radix

/-- The sign in front of a text. -/
def signText : List Char → Bool × List Char
  | '+' :: t => (false, t)
  | '-' :: t => (true, t)
  | '~' :: t => (true, t)
  | t => (false, t)

/-- An integer after white space. -/
def scanText (radix : Radix) (t : List Char) : Option (ℤ × List Char) :=
  let (isNeg, t') := signText (t.dropWhile isSpace)
  (unsignedText radix t').map fun (abs, rest) => (if isNeg then -abs else abs, rest)

section Signed

variable {w : Widths} {radix : Radix} {cread : Reader size Char} {uread : Reader size ℤ}

/-- A `0` in front of what is no digit. -/
theorem numberText_zero {c : Char} (h : Radix.hex.dig c = none) (t : List Char) :
    numberText .hex ('0' :: c :: t) = some (0, c :: t) := by
  have hzero : Radix.hex.dig '0' = some 0 := by decide
  simp [numberText, leading, after, hzero, h, valueOf]

theorem reads_toHexR (h : cread.Reads uread (numberText .hex)) : cread.Reads (toHexR cread uread) hexText := by
  intro s
  have hs := h s
  cases hread : cread.read s with
  | none =>
    rw [Reader.text_of_none hread]
    simp [toHexR, hread, hexText, numberText, leading]
  | some x =>
    obtain ⟨c1, s1⟩ := x
    rw [Reader.text_of_some hread] at hs ⊢
    by_cases hzero : c1 = '0'
    · subst hzero
      cases hread' : cread.read s1 with
      | none =>
        rw [Reader.text_of_none hread']
        simp [toHexR, hread, hread', hexText, numberText, leading, after, Reader.text_of_none hread', valueOf,
          show Radix.hex.dig '0' = some 0 by decide]
      | some x =>
        obtain ⟨c2, s2⟩ := x
        have hs2 := h s2
        rw [Reader.text_of_some hread'] at hs ⊢
        simp only [toHexR, hread, hread', if_true, hexText]
        by_cases hx : c2 = 'x' ∨ c2 = 'X'
        · have hdig : Radix.hex.dig c2 = none := by obtain rfl | rfl := hx <;> decide
          cases hun : uread.read s2 with
          | none =>
            have hnil : leading Radix.hex.dig (cread.text s2) = [] := by
              by_contra hne
              simp [hun, numberText, hne] at hs2
            rw [if_pos hx, if_neg (by simp [hnil]), numberText_zero hdig]
            simp [Reader.text_of_some hread']
          | some y =>
            have hne : leading Radix.hex.dig (cread.text s2) ≠ [] := by
              intro hnil
              simp [hun, numberText, hnil] at hs2
            rw [if_pos hx, if_pos ⟨hx, hne⟩, ← hs2, hun]
        · rw [if_neg hx, if_neg (fun hand => hx hand.1), hs]
    · rw [toHexR]
      simp only [hread, hzero, if_false, hs]
      rw [hexText]
      rintro c t heq
      exact hzero (List.cons.inj heq).1

theorem signText_cons (c : Char) (t : List Char) :
    signText (c :: t) = if c = '+' then (false, t) else if c = '-' then (true, t)
      else if c = '~' then (true, t) else (false, c :: t) := by
  rw [signText.eq_def]
  split <;> simp_all

theorem reads_toSign {f : List Char → Option (ℤ × List Char)} (h : cread.Reads uread f) (hnil : f [] = none) :
    cread.Reads (toSign cread uread) fun t =>
      (f (signText (t.dropWhile isSpace)).2).map fun x =>
        (if (signText (t.dropWhile isSpace)).1 then -x.1 else x.1, x.2) := by
  intro s
  have hskip := text_skipWS cread s
  simp only [← hskip]
  cases hread : cread.read (skipWS cread s) with
  | none =>
    rw [Reader.text_of_none hread]
    simp [toSign, hread, signText, hnil]
  | some x =>
    obtain ⟨ch, s'⟩ := x
    have hsign : (sign ch (skipWS cread s) s').1 = (signText (cread.text (skipWS cread s))).1 ∧
        cread.text (sign ch (skipWS cread s) s').2 = (signText (cread.text (skipWS cread s))).2 := by
      rw [Reader.text_of_some hread, signText_cons, sign]
      split_ifs <;> simp [Reader.text_of_some hread]
    have huns := h (sign ch (skipWS cread s) s').2
    rw [hsign.2] at huns
    rw [← huns, ← hsign.1]
    simp only [toSign, hread]
    cases hun : uread.read (sign ch (skipWS cread s) s').2 with
    | none => simp
    | some y => split <;> rfl

theorem reads_scan : cread.Reads (scan w radix cread) (scanText radix) := by
  have huns : cread.Reads (toUnsR (toChunkR w radix (toDigR radix.dig cread))) (numberText radix) := reads_toUnsR
  cases radix with
  | hex => exact reads_toSign (reads_toHexR huns) rfl
  | bin => exact reads_toSign huns rfl
  | oct => exact reads_toSign huns rfl
  | dec => exact reads_toSign huns rfl

end Signed

end MLton.IntInf
