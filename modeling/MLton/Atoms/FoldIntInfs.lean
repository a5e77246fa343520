import MLton.Atoms.FoldWords
import MLton.Lib.TwosComplement

/-!
# Atoms/FoldIntInfs — folding primitives on integers is right

As `FoldWords`, for integers: two constants, a variable and a constant in either order, or one variable
twice, before the space that the result is allocated in.
-/

namespace MLton.Atoms

open Prim

variable {β : Type} {env : β → Value} {v : Value}

theorem Agrees.intInf {i j : ℤ} (h : i = j) : Agrees env (Prim.intInf i) (.intInf j) :=
  .ite (fun _ => .unknown) fun _ => .inr (congrArg (some ∘ Value.intInf) h)

theorem arg_intInf {i : ℤ} :
    ∀ {a : ApplyArg β}, a.value env = .intInf i → a = .const (.intInf i) ∨ ∃ z, a = .var z ∧ env z = .intInf i
  | .const (.intInf _), h => by
    cases h
    exact .inl rfl
  | .var z, h => .inr ⟨z, rfl, h⟩
  | .con _ _, h | .const (.word _), h | .const .null, h => by cases h

variable {pl : Platform} {varEquals : β → β → Bool} {p : Prim} {i j k : ℤ}

/-- An integer that does not fit the compiler's `int` is not looked at. -/
theorem agrees_varIntInf {z space : β} {inOrder : Bool} (h : Agrees env (varInt p z i space inOrder) v) :
    Agrees env (varIntInf pl p z i space inOrder) v := by
  unfold varIntInf Platform.toInt
  split_ifs
  exacts [h, .unknown]

/-- The folding of `p` on the integers `i` and `j` is right, whichever of them is a constant. -/
structure IntInfsFold (env : β → Value) (p : Prim) (i j k : ℤ) : Prop where
  consts : Folds env (intInfBinary p i j) (.intInf k)
  left : ∀ {z space}, env z = .intInf i → Agrees env (varInt p z j space true) (.intInf k)
  right : ∀ {z space}, env z = .intInf j → Agrees env (varInt p z i space false) (.intInf k)
  same : ∀ {z}, env z = .intInf i → env z = .intInf j → Agrees env (sameIntInf p z) (.intInf k)

theorem eq_of_intInf {z : β} (h : env z = .intInf i) (h' : env z = .intInf j) : i = j := by
  rw [h] at h'
  cases h'
  rfl

theorem value_intInfNeg {z space : β} (h : env z = .intInf i) :
    intInfNeg.value ([z, space].map env) = some (.intInf (-i)) := by
  simp [value, onIntInf, h]

theorem value_intInfNotb {z space : β} (h : env z = .intInf i) :
    intInfNotb.value ([z, space].map env) = some (.intInf (-i - 1)) := by
  simp [value, onIntInf, h]

/-- Integers of more than 128 bits are left alone. -/
theorem folds_unless {c : Prop} [Decidable c] {e : Except Exn (ApplyResult β)} (h : Folds env e v) :
    Folds env (if c then .ok .unknown else e) v := by
  split_ifs
  exacts [.ok .unknown, h]

section Binary

open TwosComplement

theorem intInfAdd_folds : IntInfsFold env intInfAdd i j (i + j) where
  consts := folds_unless (.ok (.intInf rfl))
  left hz := .ite (fun h0 => .var (by rw [hz, h0, add_zero])) fun _ => .unknown
  right hz := .ite (fun h0 => .var (by rw [hz, h0, zero_add])) fun _ => .unknown
  same _ _ := .unknown

theorem intInfAndb_folds : IntInfsFold env intInfAndb i j (i.land j) where
  consts := folds_unless (.ok (.intInf rfl))
  left hz := .ite (fun h0 => .intInf (by rw [h0, land_zero])) fun _ =>
    .ite (fun h1 => .var (by rw [hz, h1, land_neg_one])) fun _ => .unknown
  right hz := .ite (fun h0 => .intInf (by rw [h0, land_comm, land_zero])) fun _ =>
    .ite (fun h1 => .var (by rw [hz, h1, land_comm, land_neg_one])) fun _ => .unknown
  same hz hz' := .var (by rw [hz, eq_of_intInf hz hz', land_self])

theorem intInfGcd_folds : IntInfsFold env intInfGcd i j (i.gcd j) where
  consts := folds_unless (.ok (.intInf rfl))
  left _ := .ite (fun h => .intInf (by obtain rfl | rfl := h <;> simp)) fun _ => .unknown
  right _ := .ite (fun h => .intInf (by obtain rfl | rfl := h <;> simp)) fun _ => .unknown
  same _ _ := .unknown

theorem intInfMul_folds : IntInfsFold env intInfMul i j (i * j) where
  consts := folds_unless (.ok (.intInf rfl))
  left hz := .ite (fun h0 => .intInf (by rw [h0, mul_zero])) fun _ =>
    .ite (fun h1 => .var (by rw [hz, h1, mul_one])) fun _ =>
    .ite (fun hn => .apply (by rw [value_intInfNeg hz, hn, mul_neg_one])) fun _ => .unknown
  right hz := .ite (fun h0 => .intInf (by rw [h0, zero_mul])) fun _ =>
    .ite (fun h1 => .var (by rw [hz, h1, one_mul])) fun _ =>
    .ite (fun hn => .apply (by rw [value_intInfNeg hz, hn, neg_one_mul])) fun _ => .unknown
  same _ _ := .unknown

theorem intInfOrb_folds : IntInfsFold env intInfOrb i j (i.lor j) where
  consts := folds_unless (.ok (.intInf rfl))
  left hz := .ite (fun h0 => .var (by rw [hz, h0, lor_zero])) fun _ =>
    .ite (fun h1 => .intInf (by rw [h1, lor_neg_one])) fun _ => .unknown
  right hz := .ite (fun h0 => .var (by rw [hz, h0, lor_comm, lor_zero])) fun _ =>
    .ite (fun h1 => .intInf (by rw [h1, lor_comm, lor_neg_one])) fun _ => .unknown
  same hz hz' := .var (by rw [hz, eq_of_intInf hz hz', lor_self])

theorem intInfQuot_folds (hj : j ≠ 0) : IntInfsFold env intInfQuot i j (i.tdiv j) where
  consts := folds_unless ⟨_, by rw [IntInf.quot, if_neg hj]; rfl, .intInf rfl⟩
  left hz := .ite (fun h1 => .var (by rw [hz, h1, Int.tdiv_one])) fun _ =>
    .ite (fun hn => .apply (by rw [value_intInfNeg hz, hn, Int.tdiv_neg, Int.tdiv_one])) fun _ => .unknown
  right _ := .unknown
  same hz hz' := .intInf (by rw [eq_of_intInf hz hz', Int.tdiv_self hj])

theorem intInfRem_folds (hj : j ≠ 0) : IntInfsFold env intInfRem i j (i.tmod j) where
  consts := folds_unless ⟨_, by rw [IntInf.rem, if_neg hj]; rfl, .intInf rfl⟩
  left _ := .ite (fun h => .intInf (by obtain ⟨-, rfl | rfl⟩ := h <;> simp)) fun _ => .unknown
  right _ := .inl (by simp [varInt])
  same hz hz' := .intInf (by rw [eq_of_intInf hz hz', Int.tmod_self])

theorem intInfSub_folds : IntInfsFold env intInfSub i j (i - j) where
  consts := folds_unless (.ok (.intInf rfl))
  left hz := .ite (fun h0 => .ite (fun _ => .var (by rw [hz, h0, sub_zero])) fun h => absurd rfl h)
    fun _ => .unknown
  right hz := .ite (fun h0 => .ite (fun h => absurd h Bool.false_ne_true) fun _ =>
    .apply (by rw [value_intInfNeg hz, h0, zero_sub])) fun _ => .unknown
  same hz hz' := .intInf (by rw [eq_of_intInf hz hz', sub_self])

theorem intInfXorb_folds : IntInfsFold env intInfXorb i j (i.xor j) where
  consts := folds_unless (.ok (.intInf rfl))
  left hz := .ite (fun h0 => .var (by rw [hz, h0, lxor_zero])) fun _ =>
    .ite (fun h1 => .apply (by rw [value_intInfNotb hz, h1, lxor_neg_one, lnot_eq])) fun _ => .unknown
  right hz := .ite (fun h0 => .var (by rw [hz, h0, lxor_comm, lxor_zero])) fun _ =>
    .ite (fun h1 => .apply (by rw [value_intInfNotb hz, h1, lxor_comm, lxor_neg_one, lnot_eq]))
    fun _ => .unknown
  same hz hz' := .intInf (by rw [eq_of_intInf hz hz', lxor_self])

end Binary

theorem allConsts_intInfs (i j : ℤ) (c : Const) :
    allConsts (β := β) pl p [.intInf i, .intInf j, c] = handle (intInfBinary p i j) := by
  cases p <;> rfl

theorem allConsts_shift (i : ℤ) (w : WordX) (c : Const) :
    allConsts (β := β) pl p [.intInf i, .word w, c] = handle (intInfShift pl p i w) := by
  cases p <;> rfl

theorem apply_intInfs {a a' space : ApplyArg β} (heq : ∀ z z', varEquals z z' = true → env z = env z')
    (hp : IntInfsFold env p i j k) (ha : a.value env = .intInf i) (ha' : a'.value env = .intInf j) :
    Folds env (Prim.apply pl varEquals p [a, a', space]) (.intInf k) := by
  obtain rfl | ⟨z, rfl, hz⟩ := arg_intInf ha <;> obtain rfl | ⟨z', rfl, hz'⟩ := arg_intInf ha'
  · cases space with
    | const c =>
      show Folds env (allConsts pl p [_, _, _]) _
      rw [allConsts_intInfs]
      exact .handle hp.consts
    | con _ _ | var _ => exact hp.consts
  · cases space with
    | const _ | con _ _ => exact .ok .unknown
    | var space => exact .ok (agrees_varIntInf (hp.right hz'))
  · cases space with
    | const _ | con _ _ => exact .ok .unknown
    | var space => exact .ok (agrees_varIntInf (hp.left hz))
  · exact .ok (.when fun h => hp.same hz ((heq _ _ h).trans hz'))

/-! ## Negation, complement and comparison -/

theorem apply_intInf {f : ℤ → ℤ} {a space : ApplyArg β}
    (hp : ∀ c, allConsts (β := β) pl p [.intInf i, c] = handle (.ok (intInfUnary p i)))
    (hf : ∀ i, Agrees env (intInfUnary p i) (.intInf (f i))) (hvar : ∀ x, sameVar pl p (β := β) x = .unknown)
    (hword : ∀ x w b, varWord (β := β) p x w b = .ok .unknown) (ha : a.value env = .intInf i) :
    Folds env (Prim.apply pl varEquals p [a, space]) (.intInf (f i)) := by
  obtain rfl | ⟨z, rfl, hz⟩ := arg_intInf ha
  · cases space with
    | const c =>
      show Folds env (allConsts pl p [_, _]) _
      rw [hp]
      exact .handle (.ok (hf i))
    | con _ _ | var _ => exact .ok (hf i)
  · cases space with
    | const c =>
      cases c with
      | word w =>
        show Folds env (varWord p z w true) _
        rw [hword]
        exact .ok .unknown
      | intInf _ | null => exact .ok .unknown
    | con _ _ => exact .ok .unknown
    | var space => exact .ok (.when fun _ => by rw [hvar]; exact .unknown)

theorem agrees_intInfUnless {c : Prop} [Decidable c] {r : ApplyResult β} (h : Agrees env r v) :
    Agrees env (if c then .unknown else r) v := .ite (fun _ => .unknown) fun _ => h

theorem intInfNeg_folds {a space : ApplyArg β} (ha : a.value env = .intInf i) :
    Folds env (Prim.apply pl varEquals intInfNeg [a, space]) (.intInf (-i)) :=
  apply_intInf (fun c => by cases c <;> rfl) (fun _ => agrees_intInfUnless (.intInf rfl)) (fun _ => rfl) (fun _ _ _ => rfl) ha

theorem intInfNotb_folds {a space : ApplyArg β} (ha : a.value env = .intInf i) :
    Folds env (Prim.apply pl varEquals intInfNotb [a, space]) (.intInf (-i - 1)) :=
  apply_intInf (f := fun i => -i - 1) (fun c => by cases c <;> rfl)
    (fun i => agrees_intInfUnless (.intInf (TwosComplement.lnot_eq i))) (fun _ => rfl) (fun _ _ _ => rfl) ha

theorem intInfCompare_folds {a a' : ApplyArg β} (heq : ∀ z z', varEquals z z' = true → env z = env z')
    (ha : a.value env = .intInf i) (ha' : a'.value env = .intInf j) :
    Folds env (Prim.apply pl varEquals intInfCompare [a, a'])
      (.word .compareRes (if i < j then -1 else if i = j then 0 else 1)) := by
  obtain rfl | ⟨z, rfl, hz⟩ := arg_intInf ha <;> obtain rfl | ⟨z', rfl, hz'⟩ := arg_intInf ha'
  · refine .handle (.ok (.word (WordX.is_make rfl) ?_))
    unfold compareInt
    split_ifs <;> rfl
  · exact .ok (agrees_intInfUnless .unknown)
  · exact .ok .unknown
  · refine .ok (.when fun h => .word (zero_is _) ?_)
    obtain rfl := eq_of_intInf hz ((heq _ _ h).trans hz')
    simp

/-! ## Shifts -/

/-- The folding of `p` on an integer and a shift count is right, whichever of them is a constant. -/
structure IntInfShiftFolds (env : β → Value) (pl : Platform) (p : Prim) (t : WordSize) (i : ℤ)
    (c : BitVec t.bits) (k : ℤ) : Prop where
  consts : ∀ {w : WordX}, w.Is t c → Folds env (intInfShift pl p i w) (.intInf k)
  left : ∀ {z}, env z = .intInf i → c.toNat = 0 → Agrees env (byZero p z) (.intInf k)
  right : ∀ {z space}, Agrees env (varInt p z i space false) (.intInf k)
  same : ∀ z, Agrees env (sameIntInf p z) (.intInf k)

theorem apply_intInfShift {t : WordSize} {c : BitVec t.bits} {a a' space : ApplyArg β}
    (hp : IntInfShiftFolds env pl p t i c k) (ha : a.value env = .intInf i)
    (ha' : a'.value env = .word t c) :
    Folds env (Prim.apply pl varEquals p [a, a', space]) (.intInf k) := by
  obtain rfl | ⟨z, rfl, hz⟩ := arg_intInf ha <;> obtain ⟨w, rfl, hw⟩ | ⟨z', rfl, hz'⟩ := arg_word ha'
  · cases space with
    | const c =>
      show Folds env (allConsts pl p [_, _, _]) _
      rw [allConsts_shift]
      exact .handle (hp.consts hw)
    | con _ _ | var _ =>
      show Folds env (intInfShift pl p i w) _
      exact hp.consts hw
  · cases space with
    | const _ | con _ _ => exact .ok .unknown
    | var space => exact .ok (agrees_varIntInf hp.right)
  · have h : Folds env (.ok (if w.isZero then byZero p z else .unknown)) (.intInf k) := by
      refine .ok (.when fun h0 => hp.left hz ?_)
      rw [hw.isZero_iff.mp h0, BitVec.toNat_ofNat, Nat.zero_mod]
    cases space <;> exact h
  · exact .ok (.when fun _ => hp.same z)

variable {c : BitVec WordSize.shiftArg.bits}

/-- A shift count fits the compiler's `word`. -/
theorem fromIntInf_shiftArg (pl : Platform) {w : WordX} (h : w.Is .shiftArg c) :
    pl.fromIntInf w.toIntInf = c.toNat := by
  have hlt : c.toNat < 2 ^ pl.wordBits :=
    c.isLt.trans_le (Nat.pow_le_pow_right Nat.two_pos pl.le_wordBits)
  rw [Platform.fromIntInf, h.toIntInf, Int.emod_eq_of_lt (by omega) (by exact_mod_cast hlt), Int.toNat_natCast]

theorem intInfArshift_folds : IntInfShiftFolds env pl intInfArshift .shiftArg i c (i / 2 ^ c.toNat) where
  consts h := folds_unless (.ok (.intInf (by rw [fromIntInf_shiftArg pl h, Int.shiftRight_eq_div_pow]; norm_cast)))
  left hz hc := .var (by simp [hz, hc])
  right := .ite (fun h0 => .intInf (by simp [h0])) fun _ =>
    .ite (fun hn => .intInf (by rw [hn, Int.neg_one_ediv, Int.sign_eq_one_of_pos (by positivity)])) fun _ => .unknown
  same _ := .unknown

theorem intInfLshift_folds : IntInfShiftFolds env pl intInfLshift .shiftArg i c (i * 2 ^ c.toNat) where
  consts {w} h := by
    have hmax : (WordX.make 128 .shiftArg).Is .shiftArg (.ofInt _ 128) := WordX.is_make rfl
    unfold intInfShift
    refine folds_unless ?_
    simp only [WordX.lt_is h hmax]
    exact .when fun _ => .intInf (by rw [fromIntInf_shiftArg pl h, Int.shiftLeft_eq])
  left hz hc := .var (by simp [hz, hc])
  right := .ite (fun h0 => .intInf (by simp [h0])) fun _ => .unknown
  same _ := .unknown

end MLton.Atoms
