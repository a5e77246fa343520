import MLton.Atoms.FoldIntInfs

/-!
# Atoms/FoldSound — folding is right for every primitive

Where a primitive has a value on its arguments the folding does not raise, and its result is `unknown` or
evaluates to that value (`apply_folds`).

On integers the folding is asked for more: not to raise even where there is no value, as the application
may be unreachable.  It raises in one case, a constant divided by the constant zero with a variable for
the space, which `someVars` computes without the handler of `allConsts`.
-/

namespace MLton.Atoms

open Prim

variable {β : Type} {env : β → Value} {v : Value} {pl : Platform} {varEquals : β → β → Bool}

/-! ## Primitives on one word -/

theorem apply_word {p : Prim} {s : WordSize} {x : BitVec s.bits} {a : ApplyArg β}
    (hp : ∀ {w : WordX}, w.Is s x → Folds env (allConsts pl p [.word w]) v)
    (ha : a.value env = .word s x) : Folds env (Prim.apply pl varEquals p [a]) v := by
  obtain ⟨w, rfl, hw⟩ | ⟨z, rfl, -⟩ := arg_word ha
  exacts [hp hw, .ok .unknown]

/-! ## Equality -/

section Equality

variable {s : WordSize} {x y : BitVec s.bits} {i j : ℤ}

theorem mltonEq_folds : WordsFold env pl mltonEq s s x y (.bool (x = y)) where
  consts h h' := .handle (.ok (.bool (WordX.equals_is h h')))
  left _ _ := .ok .unknown
  right _ _ := .ok .unknown
  same hz hz' := .bool (decide_eq_true (eq_of_word hz hz')).symm

theorem mltonEqual_folds : WordsFold env pl mltonEqual s s x y (.bool (x = y)) where
  consts h h' := .handle (.ok (.bool (WordX.equals_is h h')))
  left _ _ := .ok .unknown
  right _ _ := .ok .unknown
  same hz hz' := .bool (decide_eq_true (eq_of_word hz hz')).symm

theorem intInfEqual_folds {a a' : ApplyArg β} (heq : ∀ z z', varEquals z z' = true → env z = env z')
    (ha : a.value env = .intInf i) (ha' : a'.value env = .intInf j) :
    Folds env (Prim.apply pl varEquals mltonEqual [a, a']) (.bool (i = j)) := by
  obtain rfl | ⟨z, rfl, hz⟩ := arg_intInf ha <;> obtain rfl | ⟨z', rfl, hz'⟩ := arg_intInf ha'
  · exact .handle (.ok (.bool rfl))
  · exact .ok (agrees_intInfUnless .unknown)
  · exact .ok .unknown
  · exact .ok (.when fun h => .bool (decide_eq_true (eq_of_intInf hz ((heq _ _ h).trans hz'))).symm)

end Equality

/-! ## The arguments that a primitive has a value on -/

theorem of_onWord {s : WordSize} {f : BitVec s.bits → Value} :
    ∀ {args : List (ApplyArg β)}, onWord s f (args.map (·.value env)) = some v →
      ∃ a x, args = [a] ∧ a.value env = .word s x ∧ f x = v
  | [a], h => by
    obtain ⟨x, hx, hv⟩ := Option.map_eq_some_iff.mp h
    exact ⟨a, x, rfl, Value.eq_word_of_bits? hx, hv⟩

theorem of_onWords {s t : WordSize} {f : BitVec s.bits → BitVec t.bits → Option Value} :
    ∀ {args : List (ApplyArg β)}, onWords s t f (args.map (·.value env)) = some v →
      ∃ a a' x y, args = [a, a'] ∧ a.value env = .word s x ∧ a'.value env = .word t y ∧ f x y = some v
  | [a, a'], h => by
    obtain ⟨x, hx, h⟩ := Option.bind_eq_some_iff.mp h
    obtain ⟨y, hy, hv⟩ := Option.bind_eq_some_iff.mp h
    exact ⟨a, a', x, y, rfl, Value.eq_word_of_bits? hx, Value.eq_word_of_bits? hy, hv⟩

theorem map_eq_two {α γ : Type} {f : α → γ} {u u' : γ} :
    ∀ {l : List α}, l.map f = [u, u'] → ∃ a a', l = [a, a'] ∧ f a = u ∧ f a' = u'
  | [a, a'], h => by
    simp only [List.map_cons, List.map_nil, List.cons.injEq, and_true] at h
    exact ⟨a, a', rfl, h⟩

theorem map_eq_three {α γ : Type} {f : α → γ} {u u' u'' : γ} :
    ∀ {l : List α}, l.map f = [u, u', u''] →
      ∃ a a' a'', l = [a, a', a''] ∧ f a = u ∧ f a' = u' ∧ f a'' = u''
  | [a, a', a''], h => by
    simp only [List.map_cons, List.map_nil, List.cons.injEq, and_true] at h
    exact ⟨a, a', a'', rfl, h⟩

theorem of_onIntInf {f : ℤ → ℤ} {args : List (ApplyArg β)}
    (h : onIntInf f (args.map (·.value env)) = some v) :
    ∃ a space i, args = [a, space] ∧ a.value env = .intInf i ∧ .intInf (f i) = v := by
  unfold onIntInf at h
  split at h
  · next i _ hargs =>
    obtain ⟨a, space, rfl, ha, -⟩ := map_eq_two hargs
    exact ⟨a, space, i, rfl, ha, Option.some.inj h⟩
  · cases h

theorem of_onIntInfs {f : ℤ → ℤ → Option ℤ} {args : List (ApplyArg β)}
    (h : onIntInfs f (args.map (·.value env)) = some v) :
    ∃ a a' space i j k, args = [a, a', space] ∧ a.value env = .intInf i ∧ a'.value env = .intInf j ∧
      f i j = some k ∧ .intInf k = v := by
  unfold onIntInfs at h
  split at h
  · next i j _ hargs =>
    obtain ⟨a, a', space, rfl, ha, ha', -⟩ := map_eq_three hargs
    obtain ⟨k, hk, hv⟩ := Option.map_eq_some_iff.mp h
    exact ⟨a, a', space, i, j, k, rfl, ha, ha', hk, hv⟩
  · cases h

theorem of_onIntInfShift {f : ℤ → ℕ → ℤ} {args : List (ApplyArg β)}
    (h : onIntInfShift f (args.map (·.value env)) = some v) :
    ∃ a a' space i, ∃ c : BitVec WordSize.shiftArg.bits, args = [a, a', space] ∧ a.value env = .intInf i ∧
      a'.value env = .word .shiftArg c ∧ .intInf (f i c.toNat) = v := by
  unfold onIntInfShift at h
  split at h
  · next i u _ hargs =>
    obtain ⟨a, a', space, rfl, ha, ha', -⟩ := map_eq_three hargs
    obtain ⟨c, hc, hv⟩ := Option.map_eq_some_iff.mp h
    exact ⟨a, a', space, i, c, rfl, ha, ha'.trans (Value.eq_word_of_bits? hc), hv⟩
  · cases h

theorem of_onCompare {args : List (ApplyArg β)} (h : onCompare (args.map (·.value env)) = some v) :
    ∃ a a' i j, args = [a, a'] ∧ a.value env = .intInf i ∧ a'.value env = .intInf j ∧
      .word .compareRes (if i < j then -1 else if i = j then 0 else 1) = v := by
  unfold onCompare at h
  split at h
  · next i j hargs =>
    obtain ⟨a, a', rfl, ha, ha'⟩ := map_eq_two hargs
    exact ⟨a, a', i, j, rfl, ha, ha', Option.some.inj h⟩
  · cases h

/-! ## Every primitive -/

section Apply

variable {args : List (ApplyArg β)}

theorem folds_intInfShift {p : Prim} {f : ℤ → ℕ → ℤ}
    (hp : ∀ {i} {c : BitVec WordSize.shiftArg.bits},
      IntInfShiftFolds env pl p .shiftArg i c (f i c.toNat))
    (hv : onIntInfShift f (args.map (·.value env)) = some v) :
    Folds env (Prim.apply pl varEquals p args) v := by
  obtain ⟨a, a', space, i, c, rfl, ha, ha', rfl⟩ := of_onIntInfShift hv
  exact apply_intInfShift hp ha ha'

theorem folds_word {p : Prim} {s : WordSize} {f : BitVec s.bits → Value}
    (hp : ∀ {x} {w : WordX}, w.Is s x → Folds env (allConsts pl p [.word w]) (f x))
    (hv : onWord s f (args.map (·.value env)) = some v) :
    Folds env (Prim.apply pl varEquals p args) v := by
  obtain ⟨a, x, rfl, ha, rfl⟩ := of_onWord hv
  exact apply_word hp ha

variable (heq : ∀ z z', varEquals z z' = true → env z = env z')

include heq

theorem folds_words {p : Prim} {s t : WordSize} {f : BitVec s.bits → BitVec t.bits → Option Value}
    (hp : ∀ {x y u}, f x y = some u → WordsFold env pl p s t x y u)
    (hv : onWords s t f (args.map (·.value env)) = some v) :
    Folds env (Prim.apply pl varEquals p args) v := by
  obtain ⟨a, a', x, y, rfl, ha, ha', h⟩ := of_onWords hv
  exact apply_words heq (hp h) ha ha'

theorem folds_intInfs {p : Prim} {f : ℤ → ℤ → Option ℤ}
    (hp : ∀ {i j k}, f i j = some k → IntInfsFold env p i j k)
    (hv : onIntInfs f (args.map (·.value env)) = some v) :
    Folds env (Prim.apply pl varEquals p args) v := by
  obtain ⟨a, a', space, i, j, k, rfl, ha, ha', h, rfl⟩ := of_onIntInfs hv
  exact apply_intInfs heq (hp h) ha ha'

theorem folds_eq {p : Prim} (hp : ∀ {s x y}, WordsFold env pl p s s x y (.bool (x = y)))
    (hv : onEq (args.map (·.value env)) = some v) : Folds env (Prim.apply pl varEquals p args) v := by
  unfold onEq at hv
  split at hv
  · next s x u hargs =>
    obtain ⟨a, a', rfl, ha, ha'⟩ := map_eq_two hargs
    obtain ⟨y, hy, rfl⟩ := Option.map_eq_some_iff.mp hv
    exact apply_words heq hp ha (ha'.trans (Value.eq_word_of_bits? hy))
  · cases hv

theorem folds_equal (hv : onEqual (args.map (·.value env)) = some v) :
    Folds env (Prim.apply pl varEquals mltonEqual args) v := by
  unfold onEqual at hv
  split at hv
  · next i j hargs =>
    obtain ⟨a, a', rfl, ha, ha'⟩ := map_eq_two hargs
    obtain rfl := Option.some.inj hv
    exact intInfEqual_folds heq ha ha'
  · exact folds_eq heq mltonEqual_folds hv

/-- **Folding is right** where the primitive has a value. -/
theorem apply_folds {p : Prim} (hp : p.Wide) (hv : p.value (args.map (·.value env)) = some v) :
    Folds env (Prim.apply pl varEquals p args) v := by
  cases p with
  | intInfAdd => exact folds_intInfs heq (fun h => by cases h; exact intInfAdd_folds) hv
  | intInfAndb => exact folds_intInfs heq (fun h => by cases h; exact intInfAndb_folds) hv
  | intInfArshift => exact folds_intInfShift (f := fun i c => i / 2 ^ c) intInfArshift_folds hv
  | intInfCompare =>
    obtain ⟨a, a', i, j, rfl, ha, ha', rfl⟩ := of_onCompare hv
    exact intInfCompare_folds heq ha ha'
  | intInfGcd => exact folds_intInfs heq (fun h => by cases h; exact intInfGcd_folds) hv
  | intInfLshift => exact folds_intInfShift (f := fun i c => i * 2 ^ c) intInfLshift_folds hv
  | intInfMul => exact folds_intInfs heq (fun h => by cases h; exact intInfMul_folds) hv
  | intInfNeg =>
    obtain ⟨a, space, i, rfl, ha, rfl⟩ := of_onIntInf hv
    exact intInfNeg_folds ha
  | intInfNotb =>
    obtain ⟨a, space, i, rfl, ha, rfl⟩ := of_onIntInf hv
    exact intInfNotb_folds ha
  | intInfOrb => exact folds_intInfs heq (fun h => by cases h; exact intInfOrb_folds) hv
  | intInfQuot =>
    refine folds_intInfs heq (fun {i j k} h => ?_) hv
    split_ifs at h with hj
    cases h
    exact intInfQuot_folds hj
  | intInfRem =>
    refine folds_intInfs heq (fun {i j k} h => ?_) hv
    split_ifs at h with hj
    cases h
    exact intInfRem_folds hj
  | intInfSub => exact folds_intInfs heq (fun h => by cases h; exact intInfSub_folds) hv
  | intInfXorb => exact folds_intInfs heq (fun h => by cases h; exact intInfXorb_folds) hv
  | mltonEq => exact folds_eq heq mltonEq_folds hv
  | mltonEqual => exact folds_equal heq hv
  | wordAdd s => exact folds_words heq (fun h => by cases h; exact wordAdd_folds) hv
  | wordAddCheckP s sg => exact folds_words heq (fun h => by cases h; exact wordAddCheckP_folds) hv
  | wordAndb s => exact folds_words heq (fun h => by cases h; exact wordAndb_folds) hv
  | wordEqual s => exact folds_words heq (fun h => by cases h; exact wordEqual_folds) hv
  | wordExtdToWord s s' sg =>
    exact folds_word (fun h => .handle (.ok (.word (WordX.resizeSg_is h s' sg) rfl))) hv
  | wordLshift s => exact folds_words heq (fun h => by cases h; exact wordLshift_folds) hv
  | wordLt s sg => exact folds_words heq (fun h => by cases h; exact wordLt_folds) hv
  | wordMul s sg => exact folds_words heq (fun h => by cases h; exact wordMul_folds) hv
  | wordMulCheckP s sg => exact folds_words heq (fun h => by cases h; exact wordMulCheckP_folds hp) hv
  | wordNeg s => exact folds_word (fun h => .handle (.ok (.word (WordX.neg_is h) rfl))) hv
  | wordNegCheckP s sg => exact folds_word (fun h => .handle (.ok (.bool (WordX.negCheck_is h sg)))) hv
  | wordNotb s => exact folds_word (fun h => .handle (.ok (.word (WordX.notb_is h) rfl))) hv
  | wordOrb s => exact folds_words heq (fun h => by cases h; exact wordOrb_folds) hv
  | wordQuot s sg =>
    refine folds_words heq (fun {x y u} h => ?_) hv
    split_ifs at h with hy
    cases h
    exact wordQuot_folds hy
  | wordRem s sg =>
    refine folds_words heq (fun {x y u} h => ?_) hv
    split_ifs at h with hy
    cases h
    exact wordRem_folds hy
  | wordRol s => exact folds_words heq (fun h => by cases h; exact wordRol_folds) hv
  | wordRor s => exact folds_words heq (fun h => by cases h; exact wordRor_folds) hv
  | wordRshift s sg => exact folds_words heq (fun h => by cases h; exact wordRshift_folds) hv
  | wordSub s => exact folds_words heq (fun h => by cases h; exact wordSub_folds) hv
  | wordSubCheckP s sg => exact folds_words heq (fun h => by cases h; exact wordSubCheckP_folds) hv
  | wordXorb s => exact folds_words heq (fun h => by cases h; exact wordXorb_folds) hv
  | cpointerAdd | cpointerDiff | cpointerEqual | cpointerFromWord | cpointerLt | cpointerSub |
    cpointerToWord => cases hv

end Apply

/-- **Folding on words is sound**: a result other than `unknown` evaluates to the primitive's value, for any
constants and variables, and any values of the variables that the primitive is for. -/
theorem apply_value_sound (heq : ∀ z z', varEquals z z' = true → env z = env z') {p : Prim} (hp : p.Wide)
    {args : List (ApplyArg β)} (hv : p.value (args.map (·.value env)) = some v) :
    ∃ r, Prim.apply pl varEquals p args = .ok r ∧ (r ≠ .unknown → r.value env = some v) := by
  have hfolds : Folds env (Prim.apply pl varEquals p args) v := apply_folds heq hp hv
  obtain ⟨r, hr, hagrees⟩ := hfolds
  exact ⟨r, hr, hagrees.resolve_left⟩

/-- A platform of 64 bits. -/
def platform64 : Platform where
  wordBits := 64
  intBits := 32
  cpointer := .word64
  cptrdiff := .word64
  le_wordBits := by norm_num

/-- Minus one times a variable, in eight bits. -/
theorem apply_value_sound_neg :
    ∃ r, Prim.apply platform64 (fun _ _ => true) (wordMul .word8 true)
        [.const (.word (.make (-1) .word8)), .var ()] = .ok r ∧
      (r ≠ .unknown → r.value (fun _ => .word .word8 5#8) = some (.word .word8 251#8)) :=
  apply_value_sound (p := wordMul .word8 true) (fun _ _ _ => rfl) trivial rfl

/-! ## Raising -/

/-- An integer, or not known. -/
def IntInfArg (a : ApplyArg β) : Prop := (∃ i, a = .const (.intInf i)) ∨ ∃ x, a = .var x

/-- A shift count, or not known. -/
def CountArg (a : ApplyArg β) : Prop :=
  (∃ w : WordX, a = .const (.word w) ∧ w.size = .shiftArg) ∨ ∃ x, a = .var x

/-- Applications of the primitives on integers; the space for the result is a variable. -/
inductive IntInfApp : Prim → List (ApplyArg β) → Prop
  | binary {p a a'} (space : β) :
    p ∈ [intInfAdd, intInfAndb, intInfGcd, intInfMul, intInfOrb, intInfQuot, intInfRem, intInfSub,
      intInfXorb] → IntInfArg a → IntInfArg a' → IntInfApp p [a, a', .var space]
  | unary {p a} (space : β) : p ∈ [intInfNeg, intInfNotb] → IntInfArg a → IntInfApp p [a, .var space]
  | shift {p a a'} (space : β) :
    p ∈ [intInfArshift, intInfLshift] → IntInfArg a → CountArg a' → IntInfApp p [a, a', .var space]
  | compare {a a'} : IntInfArg a → IntInfArg a' → IntInfApp intInfCompare [a, a']

/-- A constant of at most 128 bits divided by the constant zero, the space not known. -/
def DivByZero (p : Prim) (args : List (ApplyArg β)) : Prop :=
  (p = intInfQuot ∨ p = intInfRem) ∧
    ∃ i space, intInfTooBig i = false ∧ args = [.const (.intInf i), .const (.intInf 0), .var space]

theorem intInfBinary_ok {p : Prim} {i j : ℤ} {space : β}
    (h : ¬ DivByZero p [.const (.intInf i), .const (.intInf j), .var space]) :
    ∃ r, intInfBinary p i j = Except.ok (r : ApplyResult β) := by
  unfold intInfBinary
  split_ifs with hbig
  · exact ⟨_, rfl⟩
  · have hdiv : p = intInfQuot ∨ p = intInfRem → j ≠ 0 := by
      rintro hp rfl
      rw [Bool.or_eq_true_iff, not_or, Bool.not_eq_true, Bool.not_eq_true] at hbig
      exact h ⟨hp, i, space, hbig.1, rfl⟩
    split
    case h_6 => exact ⟨_, by rw [IntInf.quot, if_neg (hdiv (.inl rfl))]; rfl⟩
    case h_7 => exact ⟨_, by rw [IntInf.rem, if_neg (hdiv (.inr rfl))]; rfl⟩
    all_goals exact ⟨_, rfl⟩

/-- Nothing handles the exception. -/
theorem intInfBinary_zero {p : Prim} {i : ℤ} (hp : p = intInfQuot ∨ p = intInfRem)
    (hbig : intInfTooBig i = false) : intInfBinary (β := β) p i 0 = .error .div := by
  unfold intInfBinary
  have hzero : intInfTooBig 0 = false := by norm_num [intInfTooBig, Int.shiftLeft_eq]
  rw [hbig, hzero, if_neg (by decide)]
  obtain rfl | rfl := hp <;> rfl

theorem intInfShift_ok {p : Prim} {i : ℤ} {w : WordX} (hw : w.size = .shiftArg) :
    ∃ r, intInfShift pl p i w = Except.ok (r : ApplyResult β) := by
  obtain ⟨b, hb⟩ : ∃ b, w.lt (.make 128 .shiftArg) false = .ok b := ⟨_, if_pos hw⟩
  unfold intInfShift
  split_ifs
  · exact ⟨_, rfl⟩
  · split
    · exact ⟨_, rfl⟩
    · show ∃ r, (w.lt (.make 128 .shiftArg) false >>= _) = _
      rw [hb]
      cases b <;> exact ⟨_, rfl⟩
    · exact ⟨_, rfl⟩

theorem apply_consts (pl : Platform) (varEquals : β → β → Bool) {p : Prim} {i j : ℤ} {space : β} :
    Prim.apply pl varEquals p [.const (.intInf i), .const (.intInf j), .var space] =
      intInfBinary p i j := rfl

theorem apply_shiftConsts (pl : Platform) (varEquals : β → β → Bool) {p : Prim} {i : ℤ} {w : WordX}
    {space : β} :
    Prim.apply pl varEquals p [.const (.intInf i), .const (.word w), .var space] =
      intInfShift pl p i w := rfl

theorem apply_ok {p : Prim} {args : List (ApplyArg β)} (h : IntInfApp p args) (hdiv : ¬ DivByZero p args) :
    ∃ r, Prim.apply pl varEquals p args = .ok r := by
  cases h with
  | binary space _ ha ha' =>
    obtain ⟨i, rfl⟩ | ⟨x, rfl⟩ := ha <;> obtain ⟨j, rfl⟩ | ⟨y, rfl⟩ := ha'
    · exact apply_consts pl varEquals ▸ intInfBinary_ok hdiv
    all_goals exact ⟨_, rfl⟩
  | unary space _ ha => obtain ⟨i, rfl⟩ | ⟨x, rfl⟩ := ha <;> exact ⟨_, rfl⟩
  | shift space _ ha ha' =>
    obtain ⟨i, rfl⟩ | ⟨x, rfl⟩ := ha <;> obtain ⟨w, rfl, hw⟩ | ⟨y, rfl⟩ := ha'
    · exact apply_shiftConsts pl varEquals ▸ intInfShift_ok hw
    all_goals exact ⟨_, rfl⟩
  | compare ha ha' =>
    obtain ⟨i, rfl⟩ | ⟨x, rfl⟩ := ha <;> obtain ⟨j, rfl⟩ | ⟨y, rfl⟩ := ha' <;> exact ⟨_, rfl⟩

theorem wide_of_intInfApp {p : Prim} {args : List (ApplyArg β)} (h : IntInfApp p args) : p.Wide := by
  cases p with
  | wordMulCheckP s sg => cases h <;> simp at *
  | _ => trivial

end MLton.Atoms
