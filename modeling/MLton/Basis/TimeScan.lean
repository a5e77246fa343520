import Mathlib.Tactic.FieldSimp
import MLton.Basis.Time

/-!
# Basis/TimeScan — which texts `Time.scan` reads as decimal seconds

What the readers of `scan` answer is a function of the text (`unsignedText`).  It is the number that the longest
numeral in front denotes, to the nearest nanosecond, unless the numeral is followed by a lone `'.'`, the digits of the
fraction behind the seventh are worth more than half a nanosecond, or its whole seconds are no default integer.
-/

namespace MLton.Time

open IntInf CharFn

/-! ## The grammar -/

/-- **The decimal numerals**, with the numbers they denote. -/
inductive Numeral : List Char → ℚ → Prop
  | whole {is : List Char} {ds : List ℕ} : is ≠ [] → is.map decDig = ds.map some → Numeral is (valueOf 10 ds)
  | both {is fs : List Char} {ds es : List ℕ} : is ≠ [] → is.map decDig = ds.map some → fs ≠ [] →
      fs.map decDig = es.map some → Numeral (is ++ '.' :: fs) (valueOf 10 ds + valueOf 10 es / 10 ^ es.length)
  | part {fs : List Char} {es : List ℕ} : fs ≠ [] → fs.map decDig = es.map some →
      Numeral ('.' :: fs) (valueOf 10 es / 10 ^ es.length)

/-- The number with its sign. -/
def signedRat (sign : Bool) (x : ℚ) : ℚ := if sign then x else -x

/-- The time is the nearest to that many seconds. -/
def Nearest (t : Time) (x : ℚ) : Prop := |(t.ticks : ℚ) - x * 1000000000| ≤ 1 / 2

/-- The longest numeral in front of the text, and what is behind it. -/
def Longest (t p rest : List Char) (x : ℚ) : Prop :=
  t = p ++ rest ∧ Numeral p x ∧ ∀ q rest' y, t = q ++ rest' → Numeral q y → q.length ≤ p.length

/-- **What the answer should be**: the time nearest to the number that the longest numeral in front of the text
denotes, and what is behind it; or that there is none. -/
def Reads (sign : Bool) (t : List Char) (r : Except Exn (Option (Time × List Char))) : Prop :=
  (∃ p rest x time, Longest t p rest x ∧ r = .ok (some (time, rest)) ∧ time.Nearest (signedRat sign x)) ∨
    ((∀ p rest x, t = p ++ rest → ¬ Numeral p x) ∧ r = .ok none)

/-- The optional sign in front of a text, and the text behind it. -/
def signOf : List Char → Bool × List Char
  | '+' :: t => (true, t)
  | '~' :: t => (false, t)
  | '-' :: t => (false, t)
  | t => (true, t)

/-- **`scan` reads decimal seconds**, after white space and an optional sign. -/
def ReadsSeconds (t : List Char) (r : Except Exn (Option (Time × List Char))) : Prop :=
  Reads (signOf (t.dropWhile isSpace)).1 (signOf (t.dropWhile isSpace)).2 r

/-! ## Numerals in front of a text -/

section Numerals

/-- The digits of the fraction in front of a text, behind its leading digits and a point. -/
def fraction (t : List Char) : List ℕ :=
  match after decDig t with
  | '.' :: u => leading decDig u
  | _ => []

theorem decDig_point : decDig '.' = none := by decide

theorem leading_cons_of_none {c : Char} {t : List Char} (h : decDig c = none) :
    leading decDig (c :: t) = [] ∧ after decDig (c :: t) = c :: t := by
  simp [leading, after, h]

theorem ne_nil_of_map {cs : List Char} {ds : List ℕ} (h : cs ≠ []) (hcs : cs.map decDig = ds.map some) : ds ≠ [] := by
  rintro rfl
  exact h (List.map_eq_nil_iff.mp hcs)

theorem length_of_map {cs : List Char} {ds : List ℕ} (hcs : cs.map decDig = ds.map some) : cs.length = ds.length := by
  simpa using congrArg List.length hcs

variable {t p rest is fs : List Char} {ds es : List ℕ} {x : ℚ}

/-- What digits and a point leave of a text. -/
theorem leading_point (his : is.map decDig = ds.map some) :
    leading decDig (is ++ '.' :: t) = ds ∧ after decDig (is ++ '.' :: t) = '.' :: t := by
  obtain ⟨hleading, hafter⟩ := leading_append ('.' :: t) his
  obtain ⟨hnil, hpoint⟩ := @leading_cons_of_none '.' t decDig_point
  rw [hleading, hafter, hnil, hpoint]
  exact ⟨List.append_nil _, rfl⟩

theorem fraction_point (his : is.map decDig = ds.map some) : fraction (is ++ '.' :: t) = leading decDig t := by
  rw [fraction, (leading_point his).2]
  rfl

/-- The number that a numeral denotes. -/
def number (p : List Char) : ℚ := valueOf 10 (leading decDig p) + valueOf 10 (fraction p) / 10 ^ (fraction p).length

theorem leading_self (his : is.map decDig = ds.map some) : leading decDig is = ds ∧ after decDig is = [] := by
  simpa [leading, after] using leading_append [] his

theorem Numeral.eq_number (h : Numeral p x) : x = number p := by
  cases h with
  | whole _ his =>
    obtain ⟨hleading, hafter⟩ := leading_self his
    simp [number, fraction, hleading, hafter]
  | both _ his _ hfs => rw [number, fraction_point his, (leading_point his).1, (leading_self hfs).1]
  | @part fs es _ hfs =>
    have hnil : ([] : List Char).map decDig = ([] : List ℕ).map some := rfl
    have hfraction := @fraction_point fs [] [] hnil
    have hleading := (@leading_point fs [] [] hnil).1
    rw [List.nil_append] at hfraction hleading
    simp [number, hfraction, hleading, (leading_self hfs).1]

theorem Numeral.ne_nil (h : Numeral p x) : p ≠ [] := by
  cases h with
  | whole hne => exact hne
  | both hne => exact List.append_ne_nil_of_left_ne_nil hne _
  | part => exact List.cons_ne_nil _ _

/-- How long the longest numeral is. -/
def span (t : List Char) : ℕ :=
  (leading decDig t).length + if fraction t = [] then 0 else (fraction t).length + 1

theorem length_leading_append (his : is.map decDig = ds.map some) :
    is.length ≤ (leading decDig (is ++ rest)).length := by
  rw [(leading_append rest his).1, List.length_append, length_of_map his]
  exact Nat.le_add_right _ _

/-- No numeral in front is longer. -/
theorem Numeral.length_le (h : Numeral p x) (rest : List Char) : p.length ≤ span (p ++ rest) := by
  have hpoint : ∀ {is fs : List Char} {ds es : List ℕ}, is.map decDig = ds.map some → fs ≠ [] →
      fs.map decDig = es.map some → (is ++ '.' :: fs).length ≤ span ((is ++ '.' :: fs) ++ rest) := by
    intro is fs ds es his hfs hes
    have hlen := @length_leading_append rest fs es hes
    have hne : leading decDig (fs ++ rest) ≠ [] := by
      rw [(leading_append rest hes).1]
      exact List.append_ne_nil_of_left_ne_nil (ne_nil_of_map hfs hes) _
    rw [span, List.append_assoc, List.cons_append, fraction_point his, (leading_point his).1, if_neg hne,
      List.length_append, List.length_cons, length_of_map his]
    omega
  cases h with
  | whole _ his => exact (length_leading_append his).trans (Nat.le_add_right _ _)
  | both _ his hfs hes => exact hpoint his hfs hes
  | @part fs es hfs hes => exact @hpoint [] fs [] es rfl hfs hes

/-- **The longest numeral**, if there is one. -/
theorem exists_longest (t : List Char) : (leading decDig t = [] ∧ fraction t = [] ∧ ∀ p rest x, t = p ++ rest → ¬ Numeral p x) ∨
    ((leading decDig t ≠ [] ∨ fraction t ≠ []) ∧ ∃ p rest, Longest t p rest (number t) ∧
      rest = if fraction t = [] then after decDig t else after decDig (after decDig t).tail) := by
  obtain ⟨is, ht, his⟩ := exists_leading decDig t
  have hspan : ∀ {p rest x}, t = p ++ rest → Numeral p x → p.length ≤ span t := by
    rintro p rest x rfl h
    exact h.length_le rest
  by_cases hfraction : fraction t = []
  · by_cases hleading : leading decDig t = []
    · refine .inl ⟨hleading, hfraction, fun p rest x hp h => ?_⟩
      have hle := hspan hp h
      rw [span, hleading, hfraction, if_pos rfl] at hle
      exact h.ne_nil (List.length_eq_zero_iff.mp (Nat.le_zero.mp hle))
    · refine .inr ⟨.inl hleading, is, after decDig t, ⟨ht, ?_, fun q rest y hq h => ?_⟩, (if_pos hfraction).symm⟩
      · have hnumber : number t = valueOf 10 (leading decDig t) := by simp [number, hfraction]
        rw [hnumber]
        refine .whole ?_ his
        rintro rfl
        exact hleading (List.map_eq_nil_iff.mp his.symm)
      · refine (hspan hq h).trans (Nat.le_of_eq ?_)
        rw [span, hfraction, if_pos rfl, length_of_map his]
        rfl
  · obtain ⟨u, hu⟩ : ∃ u, after decDig t = '.' :: u := by
      rw [fraction] at hfraction
      split at hfraction
      · next u hu => exact ⟨u, hu⟩
      · exact absurd rfl hfraction
    have hfrac : fraction t = leading decDig u := by
      rw [fraction, hu]
      rfl
    obtain ⟨fs, hu', hfs⟩ := exists_leading decDig u
    have hne : fs ≠ [] := by
      rintro rfl
      exact hfraction (hfrac.trans (List.map_eq_nil_iff.mp hfs.symm))
    have hsplit : t = (is ++ '.' :: fs) ++ after decDig u := by
      rw [List.append_assoc, List.cons_append, ← hu', ← hu]
      exact ht
    refine .inr ⟨.inr hfraction, is ++ '.' :: fs, after decDig u, ⟨hsplit, ?_, fun q rest y hq h => ?_⟩, ?_⟩
    · rw [number, hfrac]
      by_cases hleading : leading decDig t = []
      · obtain rfl : is = [] := List.map_eq_nil_iff.mp (his.trans (by rw [hleading]; rfl))
        simpa [hleading] using Numeral.part hne hfs
      · refine .both ?_ his hne hfs
        rintro rfl
        exact hleading (List.map_eq_nil_iff.mp his.symm)
    · refine (hspan hq h).trans (Nat.le_of_eq ?_)
      rw [span, if_neg hfraction, hfrac, List.length_append, List.length_cons, length_of_map his, length_of_map hfs]
    · rw [if_neg hfraction, hu]
      rfl

/-- The longest numeral is one only. -/
theorem Longest.unique {q rest' : List Char} {y : ℚ} (h : Longest t p rest x) (h' : Longest t q rest' y) :
    rest = rest' ∧ x = y := by
  obtain ⟨ht, hp, hle⟩ := h
  obtain ⟨ht', hq, hle'⟩ := h'
  obtain ⟨rfl, rfl⟩ := List.append_inj (ht.symm.trans ht') (Nat.le_antisymm (hle' _ _ _ ht hp) (hle _ _ _ ht' hq))
  exact ⟨rfl, hp.eq_number.trans hq.eq_number.symm⟩

end Numerals

/-! ## What the readers answer -/

/-- The time of whole seconds and of the first seven digits of a fraction. -/
def timeOf (sign : Bool) (n : ℕ) (es : List ℕ) : Time :=
  signed sign (n * 10 ^ 9 + valueOf 10 (es.take 7) * 10 ^ (9 - (es.take 7).length))

/-- What `frac` answers. -/
def fracText (sign : Bool) (n : ℕ) (t : List Char) : Option (Time × List Char) :=
  if leading decDig t = [] then none else some (timeOf sign n (leading decDig t), after decDig t)

/-- What `int'` answers behind the digits. -/
def behind (sign : Bool) (n : ℕ) : List Char → Option (Time × List Char)
  | [] => some (timeOf sign n [], [])
  | c :: u => if c = '.' then fracText sign n u else some (timeOf sign n [], c :: u)

/-- What `int` answers. -/
def unsignedText (I : DefaultInt) (sign : Bool) (t : List Char) : Except Exn (Option (Time × List Char)) :=
  if leading decDig t = [] then .ok (if t.head? = some '.' then fracText sign 0 t.tail else none)
  else if I.Fits (valueOf 10 (leading decDig t)) then .ok (behind sign (valueOf 10 (leading decDig t)) (after decDig t))
  else .error .overflow

section Answers

variable {I : DefaultInt} {α : Type} {size : α → ℕ} {getc : Reader size Char} {sign : Bool} {src : α} {n : ℕ}
  {es ds : List ℕ}

/-- An answer, with the text that the state stands for. -/
def answer {α : Type} {size : α → ℕ} (getc : Reader size Char) (r : Except Exn (Option (Time × α))) :
    Except Exn (Option (Time × List Char)) := r.map (Option.map (Prod.map id getc.text))

theorem decDig_lt {c : Char} {d : ℕ} (h : decDig c = some d) : d < 10 := @dig_lt .dec c d h

theorem valueOf_snoc (ds : List ℕ) (d : ℕ) : valueOf 10 (ds ++ [d]) = 10 * valueOf 10 ds + d := by
  rw [valueOf_append, valueOf_cons]
  simp [Nat.mul_comm]

theorem isDigit_iff {c : Char} : isDigit c = true ↔ decDig c ≠ none := by
  simp [isDigit, decDig]

theorem text_dropl (getc : Reader size Char) (src : α) :
    getc.text (dropl getc isDigit src) = after decDig (getc.text src) := by
  induction src using dropl.induct getc isDigit with
  | case1 src h =>
    have hdrop : dropl getc isDigit src = src := by rw [dropl, h]
    rw [hdrop, Reader.text_of_none h]
    rfl
  | case2 src c rest h hc ih =>
    have hdrop : dropl getc isDigit src = dropl getc isDigit rest := by
      rw [dropl, h]
      exact if_pos hc
    obtain ⟨d, hd⟩ := Option.ne_none_iff_exists'.mp (isDigit_iff.mp hc)
    rw [hdrop, ih, Reader.text_of_some h, after, hd]
  | case3 src c rest h hc =>
    have hdrop : dropl getc isDigit src = src := by
      rw [dropl, h]
      exact if_neg hc
    have hd : decDig c = none := by_contra fun hd => hc (isDigit_iff.mpr hd)
    rw [hdrop, Reader.text_of_some h, (leading_cons_of_none hd).2]

theorem mkTime_digits (hne : es ≠ []) (hlen : es.length ≤ 7) (h : 7 ≤ es.length ∨ ds = []) :
    mkTime I sign n (valueOf 10 es) es.length = .ok (timeOf sign n (es ++ ds)) := by
  have htake : (es ++ ds).take 7 = es := by
    obtain h7 | rfl := h
    · rw [List.take_append_of_le_length h7, List.take_of_length_le hlen]
    · rw [List.append_nil, List.take_of_length_le hlen]
  rw [mkTime_eq (List.length_pos_iff.mpr hne) hlen, timeOf, htake]

/-- **`frac'`** has gathered the digits `es`, and goes on with those in front. -/
theorem answer_frac' (hes : ∀ d ∈ es, d < 10) (hne : es ≠ []) (hlen : es.length ≤ 7) :
    answer getc (frac' I getc sign n (valueOf 10 es) es.length src) =
      .ok (some (timeOf sign n (es ++ leading decDig (getc.text src)), after decDig (getc.text src))) := by
  generalize hk : 7 - es.length = k
  induction k generalizing es src with
  | zero =>
    have h7 : 7 ≤ es.length := by omega
    rw [frac', if_pos h7, mkTime_digits hne hlen (.inl h7), ← text_dropl]
    rfl
  | succ k ih =>
    have h7 : ¬ 7 ≤ es.length := by omega
    rw [frac', if_neg h7]
    split
    · next h =>
      rw [Reader.text_of_none h, mkTime_digits hne hlen (.inr rfl)]
      exact congrArg (fun t => Except.ok (some (timeOf sign n (es ++ []), t))) (Reader.text_of_none h)
    · next c rest h =>
      rw [Reader.text_of_some h]
      cases hd : decDig c with
      | none =>
        obtain ⟨hleading, hafter⟩ := @leading_cons_of_none c (getc.text rest) hd
        rw [hleading, hafter, mkTime_digits hne hlen (.inr rfl)]
        exact congrArg (fun t => Except.ok (some (timeOf sign n (es ++ []), t))) (Reader.text_of_some h)
      | some d =>
        have hsnoc : ∀ e ∈ es ++ [d], e < 10 := by
          intro e he
          obtain he | he := List.mem_append.mp he
          · exact hes e he
          · obtain rfl := List.mem_singleton.mp he
            exact decDig_lt hd
        have hlen' : (es ++ [d]).length ≤ 7 := by
          rw [List.length_append, List.length_singleton]
          omega
        have hlt : valueOf 10 (es ++ [d]) < 2 ^ 31 := (valueOf_lt (by norm_num) hsnoc).trans_le
          ((Nat.pow_le_pow_right (by norm_num) hlen').trans (by norm_num))
        have hsum : accumulate I (valueOf 10 es) d = .ok (valueOf 10 (es ++ [d])) := by
          rw [valueOf_snoc] at hlt ⊢
          exact accumulate_of_fits (fits_of_lt hlt)
        have hgo := @ih rest (es ++ [d]) hsnoc (by simp) hlen' (by rw [List.length_append, List.length_singleton]; omega)
        rw [List.length_append, List.length_singleton, List.append_assoc] at hgo
        have hleading : leading decDig (c :: getc.text rest) = [d] ++ leading decDig (getc.text rest) := by
          simp [leading, hd]
        have hafter : after decDig (c :: getc.text rest) = after decDig (getc.text rest) := by simp [after, hd]
        rw [hleading, hafter, ← hgo]
        dsimp only
        rw [hsum]
        rfl

theorem answer_frac : answer getc (frac I getc sign n src) = .ok (fracText sign n (getc.text src)) := by
  rw [frac]
  cases h : getc.read src with
  | none =>
    rw [Reader.text_of_none h]
    rfl
  | some x =>
    obtain ⟨c, rest⟩ := x
    rw [Reader.text_of_some h]
    dsimp only
    cases hd : decDig c with
    | none =>
      rw [fracText, if_pos (leading_cons_of_none hd).1]
      rfl
    | some d =>
      have hone : ∀ e ∈ [d], e < 10 := fun e he => List.mem_singleton.mp he ▸ decDig_lt hd
      have hfrac := @answer_frac' I α size getc sign rest n [d] hone (by simp) (by simp)
      have hvalue : valueOf 10 [d] = d := by simp [valueOf]
      rw [hvalue] at hfrac
      rw [fracText, if_neg (by simp [leading, hd])]
      simp only [leading, after, hd]
      exact hfrac

/-- **`int'`** has gathered the digits `es`, and goes on with those in front. -/
theorem answer_int' (hfits : I.Fits (valueOf 10 es)) : answer getc (int' I getc sign (valueOf 10 es) src) =
    if I.Fits (valueOf 10 (es ++ leading decDig (getc.text src))) then
      .ok (behind sign (valueOf 10 (es ++ leading decDig (getc.text src))) (after decDig (getc.text src)))
    else .error .overflow := by
  have hwhole : ∀ n, mkTime I sign n 0 7 = .ok (timeOf sign n []) := fun n => by
    rw [mkTime_eq (by norm_num) (le_refl 7)]
    rfl
  induction hn : size src using Nat.strongRec generalizing es src with
  | _ m ih =>
    rw [int']
    split
    · next h =>
      rw [Reader.text_of_none h, hwhole]
      simp only [leading, after, List.append_nil, if_pos hfits, behind]
      exact congrArg (fun t => Except.ok (some (timeOf sign (valueOf 10 es) [], t))) (Reader.text_of_none h)
    · next c rest h =>
      rw [Reader.text_of_some h]
      cases hd : decDig c with
      | none =>
        obtain ⟨hleading, hafter⟩ := @leading_cons_of_none c (getc.text rest) hd
        rw [hleading, hafter, List.append_nil, if_pos hfits, behind]
        split
        · exact answer_frac
        · rw [hwhole]
          exact congrArg (fun t => Except.ok (some (timeOf sign (valueOf 10 es) [], t))) (Reader.text_of_some h)
      | some d =>
        have hpoint : c ≠ '.' := by
          rintro rfl
          cases decDig_point.symm.trans hd
        have hleading : leading decDig (c :: getc.text rest) = [d] ++ leading decDig (getc.text rest) := by
          simp [leading, hd]
        have hafter : after decDig (c :: getc.text rest) = after decDig (getc.text rest) := by simp [after, hd]
        rw [if_neg hpoint, hleading, hafter, ← List.append_assoc]
        dsimp only
        by_cases hsnoc : I.Fits (valueOf 10 (es ++ [d]))
        · rw [← ih (size rest) (hn ▸ getc.size_lt h) hsnoc rfl, valueOf_snoc, accumulate_of_fits (valueOf_snoc es d ▸ hsnoc)]
          rfl
        · have hle : valueOf 10 (es ++ [d]) ≤ valueOf 10 (es ++ [d] ++ leading decDig (getc.text rest)) := by
            have hpos : 0 < 10 ^ (leading decDig (getc.text rest)).length := Nat.pow_pos (by norm_num)
            rw [valueOf_append _ (leading decDig (getc.text rest))]
            exact (Nat.le_mul_of_pos_right _ hpos).trans (Nat.le_add_right _ _)
          rw [if_neg fun hall => hsnoc (fits_mono hall hle), accumulate_of_not_fits (valueOf_snoc es d ▸ hsnoc)]
          rfl

theorem answer_int : answer getc (int I getc sign src) = unsignedText I sign (getc.text src) := by
  rw [int]
  cases h : getc.read src with
  | none =>
    rw [Reader.text_of_none h]
    rfl
  | some x =>
    obtain ⟨c, rest⟩ := x
    rw [Reader.text_of_some h]
    dsimp only
    cases hd : decDig c with
    | none =>
      rw [unsignedText, if_pos (leading_cons_of_none hd).1]
      by_cases hpoint : c = '.'
      · rw [if_pos hpoint, if_pos (by simp [hpoint])]
        exact answer_frac
      · rw [if_neg hpoint, if_neg (by simp [hpoint])]
        rfl
    | some d =>
      have hpoint : c ≠ '.' := by
        rintro rfl
        cases decDig_point.symm.trans hd
      have hvalue : valueOf 10 [d] = d := by simp [valueOf]
      have hfits : I.Fits (valueOf 10 [d]) := fits_of_lt (by
        rw [hvalue]
        exact (decDig_lt hd).trans (by norm_num))
      have hint := @answer_int' I α size getc sign rest [d] hfits
      rw [hvalue] at hint
      rw [if_neg hpoint, unsignedText, if_neg (by simp [leading, hd])]
      simp only [leading, after, hd]
      exact hint

theorem answer_scanBody : answer getc (scanBody I getc src) =
    unsignedText I (signOf ((getc.text src).dropWhile isSpace)).1 (signOf ((getc.text src).dropWhile isSpace)).2 := by
  rw [← text_skipWS, scanBody]
  generalize skipWS getc src = src
  cases h : getc.read src with
  | none =>
    rw [Reader.text_of_none h]
    rfl
  | some x =>
    obtain ⟨c, rest⟩ := x
    dsimp only
    have hunsigned : answer getc (int I getc true src) = unsignedText I true (getc.text src) := answer_int
    rw [int, h] at hunsigned
    dsimp only at hunsigned
    rw [Reader.text_of_some h] at hunsigned ⊢
    by_cases hplus : c = '+'
    · subst hplus
      exact answer_int
    by_cases htilde : c = '~'
    · subst htilde
      exact answer_int
    by_cases hminus : c = '-'
    · subst hminus
      exact answer_int
    have hsign : signOf (c :: getc.text rest) = (true, c :: getc.text rest) := by
      rw [signOf.eq_def]
      split <;> simp_all
    rw [if_neg hplus, if_neg htilde, if_neg hminus, hsign]
    exact hunsigned

end Answers

/-! ## Which texts are read as they should be -/

/-- A point behind the digits that no digit follows. -/
abbrev Dangling (t : List Char) : Prop := leading decDig t ≠ [] ∧ fraction t = [] ∧ (after decDig t).head? = some '.'

/-- What is behind the longest numeral. -/
def restOf (t : List Char) : List Char :=
  if fraction t = [] then after decDig t else after decDig (after decDig t).tail

/-- **The texts that are read as they should be**: the whole seconds are an `int`, no point dangles, and what the
fraction has behind its seventh digit is at most half a nanosecond. -/
def Readable (I : DefaultInt) (t : List Char) : Prop :=
  I.Fits (valueOf 10 (leading decDig t)) ∧ ¬ Dangling t ∧
    200 * valueOf 10 ((fraction t).drop 7) ≤ 10 ^ ((fraction t).drop 7).length

section Readable

variable {I : DefaultInt} {sign : Bool} {t : List Char} {n : ℕ}

theorem fraction_of_head (h : (after decDig t).head? ≠ some '.') : fraction t = [] := by
  rw [fraction]
  split
  · next u hu =>
    rw [hu] at h
    exact absurd rfl h
  · rfl

theorem fraction_of_point {u : List Char} (h : after decDig t = '.' :: u) : fraction t = leading decDig u := by
  rw [fraction, h]
  rfl

/-- **The answer to a text**, by what is in front of it. -/
theorem unsignedText_eq (I : DefaultInt) (sign : Bool) (t : List Char) : unsignedText I sign t =
    if ¬ I.Fits (valueOf 10 (leading decDig t)) then .error .overflow
    else if Dangling t ∨ (leading decDig t = [] ∧ fraction t = []) then .ok none
    else .ok (some (timeOf sign (valueOf 10 (leading decDig t)) (fraction t), restOf t)) := by
  -- what `frac` answers, with some digits in front or none
  have hpoint : ∀ u, after decDig t = '.' :: u → fracText sign (valueOf 10 (leading decDig t)) u =
      if fraction t = [] then none
      else some (timeOf sign (valueOf 10 (leading decDig t)) (fraction t), restOf t) := by
    intro u hu
    rw [fracText, ← fraction_of_point hu, restOf, hu, List.tail_cons]
    by_cases hfraction : fraction t = []
    · rw [if_pos hfraction, if_pos hfraction]
    · rw [if_neg hfraction, if_neg hfraction, if_neg hfraction]
  rw [unsignedText]
  by_cases hleading : leading decDig t = []
  · have hafter := after_of_leading_nil hleading
    have hzero : valueOf 10 (leading decDig t) = 0 := by rw [hleading, valueOf_nil]
    have hfits : I.Fits (valueOf 10 (leading decDig t)) := hzero ▸ fits_of_lt (by norm_num)
    rw [if_pos hleading, if_neg (not_not_intro hfits)]
    by_cases hhead : t.head? = some '.'
    · have hfrac := hpoint t.tail (hafter.trans (List.cons_head?_tail hhead).symm)
      rw [hzero] at hfrac ⊢
      rw [if_pos hhead, hfrac]
      by_cases hfraction : fraction t = []
      · rw [if_pos hfraction, if_pos (.inr ⟨hleading, hfraction⟩)]
      · rw [if_neg hfraction, if_neg (by simp [hfraction])]
    · rw [if_neg hhead, if_pos (.inr ⟨hleading, fraction_of_head (hafter.symm ▸ hhead)⟩)]
  · rw [if_neg hleading]
    by_cases hfits : I.Fits (valueOf 10 (leading decDig t))
    · rw [if_pos hfits, if_neg (not_not_intro hfits)]
      by_cases hhead : (after decDig t).head? = some '.'
      · obtain ⟨u, hu⟩ : ∃ u, after decDig t = '.' :: u := ⟨_, (List.cons_head?_tail hhead).symm⟩
        have hbehind : behind sign (valueOf 10 (leading decDig t)) (after decDig t) =
            fracText sign (valueOf 10 (leading decDig t)) u := by
          rw [hu, behind, if_pos rfl]
        rw [hbehind, hpoint u hu]
        by_cases hfraction : fraction t = []
        · rw [if_pos hfraction, if_pos (.inl ⟨hleading, hfraction, hhead⟩)]
        · rw [if_neg hfraction, if_neg (by simp [hfraction])]
      · have hfraction := fraction_of_head hhead
        have hbehind : behind sign (valueOf 10 (leading decDig t)) (after decDig t) =
            some (timeOf sign (valueOf 10 (leading decDig t)) [], after decDig t) := by
          cases ht : after decDig t with
          | nil => rfl
          | cons c u =>
            rw [ht, List.head?_cons, Option.some.injEq] at hhead
            rw [behind, if_neg hhead]
        rw [hbehind, if_neg (by simp [hleading, hhead]), hfraction, restOf, if_pos hfraction]
    · rw [if_neg hfits, if_pos hfits]

/-- What seven digits of a fraction are worth, and what the rest are. -/
theorem valueOf_split (es : List ℕ) : (valueOf 10 es : ℚ) / 10 ^ es.length * 1000000000 =
    valueOf 10 (es.take 7) * 10 ^ (9 - (es.take 7).length) + valueOf 10 (es.drop 7) * 100 / 10 ^ (es.drop 7).length := by
  have hsplit : valueOf 10 es = valueOf 10 (es.take 7) * 10 ^ (es.drop 7).length + valueOf 10 (es.drop 7) := by
    rw [← valueOf_append, List.take_append_drop]
  have hlen : es.length = (es.take 7).length + (es.drop 7).length := by
    rw [← List.length_append, List.take_append_drop]
  obtain hle | hlt := Nat.lt_or_ge 7 es.length |>.symm
  · have hdrop : es.drop 7 = [] := List.drop_eq_nil_of_le hle
    have hpow : (10 : ℚ) ^ (9 - es.length) * 10 ^ es.length = 1000000000 := by
      rw [← pow_add, Nat.sub_add_cancel (by omega)]
      norm_num
    rw [List.take_of_length_le hle, hdrop, ← hpow]
    field_simp
    simp
  · have htake : (es.take 7).length = 7 := by
      rw [List.length_take]
      omega
    rw [hsplit, hlen, htake]
    push_cast
    field_simp
    ring

/-- **The time is the nearest** exactly if what is cut off is at most half a nanosecond. -/
theorem nearest_timeOf (sign : Bool) (n : ℕ) (es : List ℕ) :
    (timeOf sign n es).Nearest (signedRat sign (n + valueOf 10 es / 10 ^ es.length)) ↔
      200 * valueOf 10 (es.drop 7) ≤ 10 ^ (es.drop 7).length := by
  have hsplit := valueOf_split es
  have hcut : (0 : ℚ) ≤ valueOf 10 (es.drop 7) * 100 / 10 ^ (es.drop 7).length :=
    div_nonneg (mul_nonneg (Nat.cast_nonneg _) (by norm_num)) (by positivity)
  have habs : |((timeOf sign n es).ticks : ℚ) - signedRat sign (n + valueOf 10 es / 10 ^ es.length) * 1000000000| =
      valueOf 10 (es.drop 7) * 100 / 10 ^ (es.drop 7).length := by
    cases sign with
    | true =>
      have hdiff : ((timeOf true n es).ticks : ℚ) - signedRat true (n + valueOf 10 es / 10 ^ es.length) * 1000000000 =
          -(valueOf 10 (es.drop 7) * 100 / 10 ^ (es.drop 7).length) := by
        simp only [timeOf, signed, signedRat, if_true, add_mul, hsplit]
        push_cast
        ring
      rw [hdiff, abs_neg, abs_of_nonneg hcut]
    | false =>
      have hdiff : ((timeOf false n es).ticks : ℚ) - signedRat false (n + valueOf 10 es / 10 ^ es.length) * 1000000000 =
          valueOf 10 (es.drop 7) * 100 / 10 ^ (es.drop 7).length := by
        simp only [timeOf, signed, signedRat, Bool.false_eq_true, if_false, neg_mul, add_mul, hsplit]
        push_cast
        ring
      rw [hdiff, abs_of_nonneg hcut]
  rw [Nearest, habs, div_le_div_iff₀ (by positivity) (by norm_num), ← Nat.cast_le (α := ℚ)]
  push_cast
  constructor <;> intro h <;> linarith

/-- **A text is read as it should be** exactly if it is one of these. -/
theorem reads_iff (I : DefaultInt) (sign : Bool) (t : List Char) :
    Reads sign t (unsignedText I sign t) ↔ Readable I t := by
  rw [unsignedText_eq]
  by_cases hfits : I.Fits (valueOf 10 (leading decDig t))
  · rw [if_neg (not_not_intro hfits)]
    obtain ⟨hleading, hfraction, hnone⟩ | ⟨hsome, p, rest, hlongest, hrest⟩ := exists_longest t
    · rw [if_pos (.inr ⟨hleading, hfraction⟩)]
      refine iff_of_true (.inr ⟨hnone, rfl⟩) ⟨hfits, fun h => h.1 hleading, ?_⟩
      simp [hfraction]
    · have hnot : ¬ (leading decDig t = [] ∧ fraction t = []) := fun h => hsome.elim (· h.1) (· h.2)
      by_cases hdangling : Dangling t
      · rw [if_pos (.inl hdangling)]
        refine iff_of_false ?_ fun h => h.2.1 hdangling
        rintro (⟨_, _, _, _, _, heq, _⟩ | ⟨hnone, -⟩)
        · cases heq
        · exact hnone _ _ _ hlongest.1 hlongest.2.1
      · rw [if_neg (not_or_intro hdangling hnot)]
        have hreads : Reads sign t (.ok (some (timeOf sign (valueOf 10 (leading decDig t)) (fraction t), restOf t))) ↔
            (timeOf sign (valueOf 10 (leading decDig t)) (fraction t)).Nearest (signedRat sign (number t)) := by
          constructor
          · rintro (⟨q, rest', y, time, hlongest', heq, hnearest⟩ | ⟨-, heq⟩)
            · obtain ⟨-, rfl⟩ := hlongest.unique hlongest'
              cases heq
              exact hnearest
            · cases heq
          · intro hnearest
            exact .inl ⟨p, rest, number t, _, hlongest, by rw [hrest]; rfl, hnearest⟩
        rw [hreads, number, nearest_timeOf]
        exact ⟨fun h => ⟨hfits, hdangling, h⟩, fun h => h.2.2⟩
  · rw [if_pos hfits]
    refine iff_of_false ?_ fun h => hfits h.1
    rintro (⟨_, _, _, _, _, heq, _⟩ | ⟨-, heq⟩) <;> cases heq

end Readable

/-! ## `scan` -/

/-- What the handler of `scan` makes of an answer. -/
def handled {β : Type} : Except Exn β → Except Exn β
  | .error .overflow => .error .time
  | r => r

theorem reads_handled_iff {sign : Bool} {t : List Char} {r : Except Exn (Option (Time × List Char))} :
    Reads sign t (handled r) ↔ Reads sign t r := by
  cases r with
  | ok r => rfl
  | error e =>
    refine iff_of_false ?_ ?_ <;> cases e <;> rintro (⟨_, _, _, _, _, heq, _⟩ | ⟨-, heq⟩) <;> cases heq

section

variable (I : DefaultInt) {α : Type} {size : α → ℕ} (getc : Reader size Char) (src : α)

/-- **What `scan` answers** is a function of the text. -/
theorem answer_scan : answer getc (scan I getc src) = handled
    (unsignedText I (signOf ((getc.text src).dropWhile isSpace)).1 (signOf ((getc.text src).dropWhile isSpace)).2) := by
  rw [← answer_scanBody, scan]
  generalize scanBody I getc src = r
  cases r with
  | ok r => rfl
  | error e => cases e <;> rfl

/-- **`scan` reads decimal seconds** exactly from these texts. -/
theorem scan_reads_iff : ReadsSeconds (getc.text src) (answer getc (scan I getc src)) ↔
    Readable I (signOf ((getc.text src).dropWhile isSpace)).2 := by
  rw [ReadsSeconds, answer_scan, reads_handled_iff, reads_iff]

end

/-- A point that no digit follows, an eighth digit of the fraction, and seconds that are no `int`. -/
theorem not_scan_reads : (¬ ReadsSeconds "1.x".toList (answer listReader (scan .int32 listReader "1.x".toList))) ∧
    (¬ ReadsSeconds "0.12345678".toList (answer listReader (scan .int64 listReader "0.12345678".toList))) ∧
    ¬ ReadsSeconds "3000000000".toList (answer listReader (scan .int32 listReader "3000000000".toList)) := by
  simp only [ReadsSeconds, answer_scan, reads_handled_iff, text_listReader, reads_iff]
  exact ⟨fun h => h.2.1 (by decide), fun h => absurd h.2.2 (by decide), fun h => absurd h.1 (by decide)⟩

end MLton.Time
