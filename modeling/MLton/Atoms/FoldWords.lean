import MLton.Atoms.PrimValue

/-!
# Atoms/FoldWords — folding primitives on words is right

Two words come as two constants, as a variable and a constant in either order, or as one variable twice;
`WordsFold` says that the folding is right in each of the four cases.  There is one proof of it for every
primitive on two words, an algebraic identity per branch.
-/

namespace MLton.Atoms

open WordX Prim

variable {β : Type} {env : β → Value} {v : Value}

/-! ## Results -/

namespace Agrees

theorem unknown : Agrees env .unknown v := .inl rfl

theorem var {z : β} (h : env z = v) : Agrees env (.var z) v := .inr (congrArg some h)

theorem bool {b b' : Bool} (h : b = b') : Agrees env (.bool b) (.bool b') :=
  .inr (congrArg (fun b => some (Value.bool b)) h)

theorem word {w : WordX} {s : WordSize} {b b' : BitVec s.bits} (h : w.Is s b) (hb : b = b') :
    Agrees env (Prim.word w) (.word s b') := by
  obtain ⟨rfl, rfl⟩ := h
  exact .inr (congrArg some (congrArg (Value.word _) hb))

theorem apply {p : Prim} {zs : List β} (h : p.value (zs.map env) = some v) :
    Agrees env (.apply p zs) v := .inr h

theorem ite {c : Prop} [Decidable c] {r r' : ApplyResult β} (h : c → Agrees env r v)
    (h' : ¬ c → Agrees env r' v) : Agrees env (if c then r else r') v := by
  split_ifs with hc
  exacts [h hc, h' hc]

/-- One constant can be folded, or nothing is known. -/
theorem when {b : Bool} {r : ApplyResult β} (h : b = true → Agrees env r v) :
    Agrees env (if b then r else .unknown) v := ite h fun _ => unknown

end Agrees

namespace Folds

theorem ok {r : ApplyResult β} (h : Agrees env r v) : Folds env (.ok r) v := ⟨r, rfl, h⟩

theorem handle {e : Except Exn (ApplyResult β)} (h : Folds env e v) :
    Folds env (Prim.handle e) v := by
  obtain ⟨r, rfl, hr⟩ := h
  exact ok hr

theorem word {e : Except Exn WordX} {s : WordSize} {b : BitVec s.bits}
    (h : ∃ r, e = .ok r ∧ r.Is s b) : Folds env (Prim.word <$> e) (.word s b) := by
  obtain ⟨r, rfl, hr⟩ := h
  exact ok (.word hr rfl)

theorem bool {e : Except Exn Bool} {b : Bool} (h : e = .ok b) : Folds env (ApplyResult.bool <$> e) (.bool b) :=
  h ▸ ok (.bool rfl)

theorem when {b : Bool} {r : ApplyResult β} (h : b = true → Agrees env r v) :
    Folds env (if b then pure r else pure .unknown) v := by
  split_ifs with hb
  exacts [ok (h hb), ok .unknown]

end Folds

/-! ## Arguments -/

theorem arg_word {s : WordSize} {b : BitVec s.bits} :
    ∀ {a : ApplyArg β}, a.value env = .word s b →
      (∃ w, a = .const (.word w) ∧ w.Is s b) ∨ ∃ z, a = .var z ∧ env z = .word s b
  | .const (.word w), h => by
    cases h
    exact .inl ⟨w, rfl, w.is_self⟩
  | .var z, h => .inr ⟨z, rfl, h⟩
  | .con _ _, h | .const (.intInf _), h | .const .null, h => by cases h

/-! ## Primitives on two words -/

/-- The folding of `p` on the words `x` and `y` is right, whichever of them is a constant. -/
structure WordsFold (env : β → Value) (pl : Platform) (p : Prim) (s t : WordSize) (x : BitVec s.bits)
    (y : BitVec t.bits) (v : Value) : Prop where
  consts : ∀ {w w'}, w.Is s x → w'.Is t y → Folds env (allConsts pl p [.word w, .word w']) v
  left : ∀ {z w'}, env z = .word s x → w'.Is t y → Folds env (varWord p z w' true) v
  right : ∀ {w z}, w.Is s x → env z = .word t y → Folds env (varWord p z w false) v
  same : ∀ {z}, env z = .word s x → env z = .word t y → Agrees env (sameVar pl p z) v

variable {pl : Platform} {varEquals : β → β → Bool} {p : Prim}

theorem apply_words {s t : WordSize} {x : BitVec s.bits} {y : BitVec t.bits} {a a' : ApplyArg β}
    (heq : ∀ z z', varEquals z z' = true → env z = env z') (hp : WordsFold env pl p s t x y v)
    (ha : a.value env = .word s x) (ha' : a'.value env = .word t y) :
    Folds env (Prim.apply pl varEquals p [a, a']) v := by
  obtain ⟨w, rfl, hw⟩ | ⟨z, rfl, hz⟩ := arg_word ha <;>
    obtain ⟨w', rfl, hw'⟩ | ⟨z', rfl, hz'⟩ := arg_word ha'
  · exact hp.consts hw hw'
  · exact hp.right hw hz'
  · exact hp.left hz hw'
  · exact .ok (.when fun h => hp.same hz ((heq _ _ h).trans hz'))

theorem eq_of_word {s : WordSize} {x y : BitVec s.bits} {z : β} (h : env z = .word s x)
    (h' : env z = .word s y) : x = y := by
  rw [h] at h'
  cases h'
  rfl

theorem zero_is (s : WordSize) : (zero s).Is s 0#s.bits := is_make (by simp)

theorem one_is (s : WordSize) : (one s).Is s 1#s.bits := is_make (by simp)

section Words

variable {s : WordSize} {x y : BitVec s.bits}

theorem value_neg {z : β} (h : env z = .word s x) : (wordNeg s).value ([z].map env) = some (.word s (-x)) := by
  simp [Prim.value, onWord, h, Value.bits?_word]

theorem value_notb {z : β} (h : env z = .word s x) :
    (wordNotb s).value ([z].map env) = some (.word s (~~~x)) := by
  simp [Prim.value, onWord, h, Value.bits?_word]

theorem wordAdd_folds : WordsFold env pl (wordAdd s) s s x y (.word s (x + y)) where
  consts h h' := .handle (.word (add_is h h'))
  left hz h' := .ok (.when fun h0 => .var (by rw [hz, h'.isZero_iff.mp h0, BitVec.add_zero]))
  right h hz := .ok (.when fun h0 => .var (by rw [hz, h.isZero_iff.mp h0, BitVec.zero_add]))
  same _ _ := .unknown

theorem wordAddCheckP_folds {sg : Bool} :
    WordsFold env pl (wordAddCheckP s sg) s s x y (.bool (addCheckBits sg x y)) where
  consts h h' := .handle (.ok (.bool (addCheck_is h h' sg)))
  left _ h' := .ok (.when fun h0 => .bool (by rw [h'.isZero_iff.mp h0, addCheckBits_zero]))
  right h _ := .ok (.when fun h0 => .bool (by
    rw [h.isZero_iff.mp h0, addCheckBits_comm, addCheckBits_zero]))
  same _ _ := .unknown

theorem wordAndb_folds : WordsFold env pl (wordAndb s) s s x y (.word s (x &&& y)) where
  consts h h' := .handle (.word (andb_is h h'))
  left hz h' := .ok (.ite (fun h0 => .word (zero_is s) (by rw [h'.isZero_iff.mp h0, BitVec.and_zero]))
    fun _ => .when fun h1 => .var (by rw [hz, h'.isAllOnes_iff.mp h1, BitVec.and_allOnes]))
  right h hz := .ok (.ite (fun h0 => .word (zero_is s) (by rw [h.isZero_iff.mp h0, BitVec.zero_and]))
    fun _ => .when fun h1 => .var (by rw [hz, h.isAllOnes_iff.mp h1, BitVec.allOnes_and]))
  same hz hz' := .var (by rw [hz, eq_of_word hz hz', BitVec.and_self])

theorem wordEqual_folds : WordsFold env pl (wordEqual s) s s x y (.bool (x = y)) where
  consts h h' := .handle (.ok (.bool (equals_is h h')))
  left _ _ := .ok .unknown
  right _ _ := .ok .unknown
  same hz hz' := .bool (decide_eq_true (eq_of_word hz hz')).symm

theorem wordLt_folds {sg : Bool} : WordsFold env pl (wordLt s sg) s s x y (.bool (ltBits sg x y)) where
  consts h h' := .handle (.bool (lt_is h h' sg))
  left _ h' := .ok (.when fun hmin => .bool (by rw [(h'.isMin_iff sg).mp hmin, ltBits_min]))
  right h _ := .ok (.when fun hmax => .bool (by rw [(h.isMax_iff sg).mp hmax, ltBits_max]))
  same hz hz' := .bool (by rw [eq_of_word hz hz', ltBits_self])

theorem wordMul_folds {sg : Bool} : WordsFold env pl (wordMul s sg) s s x y (.word s (x * y)) where
  consts h h' := .handle (.word (mul_is h h' sg))
  left hz h' := .ok (.ite (fun h0 => .word (zero_is s) (by rw [h'.isZero_iff.mp h0, BitVec.mul_zero]))
    fun _ => .ite (fun h1 => .var (by rw [hz, h'.isOne_iff.mp h1, BitVec.mul_one]))
    fun _ => .when fun hn => .apply (by
      rw [value_neg hz, h'.isNegOne_iff.mp (Bool.and_eq_true_iff.mp hn).2, mul_allOnes]))
  right h hz := .ok (.ite (fun h0 => .word (zero_is s) (by rw [h.isZero_iff.mp h0, BitVec.zero_mul]))
    fun _ => .ite (fun h1 => .var (by rw [hz, h.isOne_iff.mp h1, BitVec.one_mul]))
    fun _ => .when fun hn => .apply (by
      rw [value_neg hz, h.isNegOne_iff.mp (Bool.and_eq_true_iff.mp hn).2, BitVec.mul_comm, mul_allOnes]))
  same _ _ := .unknown

theorem mulCheckBits_of {sg : Bool} {w : WordX} (hs : 2 ≤ s.bits) (h : w.Is s y)
    (hw : (w.isZero || w.isOne) = true) : mulCheckBits sg x y = false := by
  obtain h0 | h1 := Bool.or_eq_true_iff.mp hw
  · rw [h.isZero_iff.mp h0, mulCheckBits_zero]
  · rw [h.isOne_iff.mp h1, mulCheckBits_one sg x hs]

theorem wordMulCheckP_folds {sg : Bool} (hs : 2 ≤ s.bits) :
    WordsFold env pl (wordMulCheckP s sg) s s x y (.bool (mulCheckBits sg x y)) where
  consts h h' := .handle (.ok (.bool (mulCheck_is h h' sg)))
  left _ h' := .ok (.when fun hw => .bool (mulCheckBits_of hs h' hw).symm)
  right h _ := .ok (.when fun hw => .bool (by rw [mulCheckBits_comm, mulCheckBits_of hs h hw]))
  same _ _ := .unknown

theorem wordOrb_folds : WordsFold env pl (wordOrb s) s s x y (.word s (x ||| y)) where
  consts h h' := .handle (.word (orb_is h h'))
  left hz h' := .ok (.ite (fun h0 => .var (by rw [hz, h'.isZero_iff.mp h0, BitVec.or_zero]))
    fun _ => .when fun h1 => .word h' (by rw [h'.isAllOnes_iff.mp h1, BitVec.or_allOnes]))
  right h hz := .ok (.ite (fun h0 => .var (by rw [hz, h.isZero_iff.mp h0, BitVec.zero_or]))
    fun _ => .when fun h1 => .word h (by rw [h.isAllOnes_iff.mp h1, BitVec.allOnes_or]))
  same hz hz' := .var (by rw [hz, eq_of_word hz hz', BitVec.or_self])

theorem not_isZero {w : WordX} (h : w.Is s y) (hy : y ≠ 0#s.bits) : ¬ w.isZero = true :=
  fun h0 => hy (h.isZero_iff.mp h0)

theorem wordQuot_folds {sg : Bool} (hy : y ≠ 0#s.bits) :
    WordsFold env pl (wordQuot s sg) s s x y (.word s (quotBits sg x y)) where
  consts h h' := .handle (by
    show Folds env (if _ then _ else _) _
    rw [if_neg (not_isZero h' hy)]
    exact .word (quot_is h h' sg hy))
  left hz h' := .ok (.when fun _ =>
    .ite (fun h1 => .var (by rw [hz, h'.isOne_iff.mp h1, quotBits_one]))
    fun _ => .when fun hn => .apply (by
      obtain ⟨rfl, hn⟩ := Bool.and_eq_true_iff.mp hn
      rw [value_neg hz, h'.isNegOne_iff.mp hn, quotBits_allOnes _ s.bits_pos]))
  right _ _ := .ok .unknown
  same hz hz' := .word (one_is s) (by
    obtain rfl := eq_of_word hz hz'
    rw [quotBits_self sg x hy])

theorem wordRem_folds {sg : Bool} (hy : y ≠ 0#s.bits) :
    WordsFold env pl (wordRem s sg) s s x y (.word s (remBits sg x y)) where
  consts h h' := .handle (by
    show Folds env (if _ then _ else _) _
    rw [if_neg (not_isZero h' hy)]
    exact .word (rem_is h h' sg hy))
  left _ h' := .ok (.when fun hw => .word (zero_is s) (by
    obtain h1 | hn := Bool.or_eq_true_iff.mp hw
    · rw [h'.isOne_iff.mp h1, remBits_one]
    · obtain ⟨rfl, hn⟩ := Bool.and_eq_true_iff.mp hn
      rw [h'.isNegOne_iff.mp hn, remBits_allOnes _ s.bits_pos]))
  right _ _ := .ok .unknown
  same hz hz' := .word (zero_is s) (by rw [eq_of_word hz hz', remBits_self])

theorem wordSub_folds : WordsFold env pl (wordSub s) s s x y (.word s (x - y)) where
  consts h h' := .handle (.word (sub_is h h'))
  left hz h' := .ok (.when fun h0 => .var (by rw [hz, h'.isZero_iff.mp h0, BitVec.sub_zero]))
  right h hz := .ok (.when fun h0 => .apply (by
    rw [value_neg hz, h.isZero_iff.mp h0, BitVec.zero_sub]))
  same hz hz' := .word (zero_is s) (by rw [eq_of_word hz hz', BitVec.sub_self])

theorem wordSubCheckP_folds {sg : Bool} :
    WordsFold env pl (wordSubCheckP s sg) s s x y (.bool (subCheckBits sg x y)) where
  consts h h' := .handle (.ok (.bool (subCheck_is h h' sg)))
  left _ h' := .ok (.when fun h0 => .bool (by
    rw [h'.isZero_iff.mp (Bool.and_eq_true_iff.mp h0).1, subCheckBits_zero]))
  right _ _ := .ok (.when fun h0 => absurd (Bool.and_eq_true_iff.mp h0).2 Bool.false_ne_true)
  same hz hz' := .bool (by rw [eq_of_word hz hz', subCheckBits_self])

theorem wordXorb_folds : WordsFold env pl (wordXorb s) s s x y (.word s (x ^^^ y)) where
  consts h h' := .handle (.word (xorb_is h h'))
  left hz h' := .ok (.ite (fun h0 => .var (by rw [hz, h'.isZero_iff.mp h0, BitVec.xor_zero]))
    fun _ => .when fun h1 => .apply (by
      rw [value_notb hz, h'.isAllOnes_iff.mp h1, BitVec.xor_allOnes]))
  right h hz := .ok (.ite (fun h0 => .var (by rw [hz, h.isZero_iff.mp h0, BitVec.zero_xor]))
    fun _ => .when fun h1 => .apply (by
      rw [value_notb hz, h.isAllOnes_iff.mp h1, BitVec.allOnes_xor]))
  same hz hz' := .word (zero_is s) (by rw [eq_of_word hz hz', BitVec.xor_self])

end Words

/-! ## Shifts and rotations -/

section Shifts

variable {s : WordSize} {x : BitVec s.bits} {c : BitVec WordSize.shiftArg.bits}

/-- The width as a shift count. -/
theorem width_is (s : WordSize) :
    (fromBits s.bits .shiftArg).Is .shiftArg (.ofNat _ s.bits) := is_make (BitVec.ofInt_natCast _ _)

theorem toNat_width (s : WordSize) : (BitVec.ofNat WordSize.shiftArg.bits s.bits).toNat = s.bits := by
  rw [BitVec.toNat_ofNat]
  exact Nat.mod_eq_of_lt s.bits_lt

/-- A shift leaves what it shifts by zero, moves zero to zero, and leaves no bit from the width on. -/
structure IsShift (s : WordSize) (f : BitVec s.bits → ℕ → BitVec s.bits) : Prop where
  by_zero : ∀ x, f x 0 = x
  zero : ∀ c, f 0#s.bits c = 0#s.bits
  of_le : ∀ x {c}, s.bits ≤ c → f x c = 0#s.bits

theorem shift_left {f : BitVec s.bits → ℕ → BitVec s.bits} (hf : IsShift s f) {z : β} {w : WordX}
    (hz : env z = .word s x) (h : w.Is .shiftArg c) :
    Folds env (shift s z w true) (.word s (f x c.toNat)) := by
  unfold shift
  rw [if_pos rfl]
  split_ifs with h0
  · refine .ok (.var ?_)
    rw [hz, h.isZero_iff.mp h0, BitVec.toNat_ofNat, Nat.zero_mod, hf.by_zero]
  · rw [ge_is h (width_is s), toNat_width]
    exact .when fun hle => .word (zero_is s) (hf.of_le x (of_decide_eq_true hle)).symm

theorem shift_right {f : BitVec s.bits → ℕ → BitVec s.bits} (hf : IsShift s f) (z : β) {w : WordX}
    (h : w.Is s x) : Folds env (shift s z w false) (.word s (f x c.toNat)) := by
  unfold shift
  rw [if_neg Bool.false_ne_true]
  split_ifs with h0
  · refine .ok (.word (zero_is s) ?_)
    rw [h.isZero_iff.mp h0, hf.zero]
  · exact .ok .unknown

theorem isShift_shiftLeft (s : WordSize) : IsShift s fun x c => x <<< c where
  by_zero x := BitVec.shiftLeft_zero x
  zero _ := by simp
  of_le _ _ h := BitVec.shiftLeft_eq_zero h

theorem isShift_ushiftRight (s : WordSize) : IsShift s fun x c => x >>> c where
  by_zero x := BitVec.ushiftRight_zero x
  zero _ := by simp
  of_le _ _ h := BitVec.ushiftRight_eq_zero h

theorem wordLshift_folds :
    WordsFold env pl (wordLshift s) s .shiftArg x c (.word s (x <<< c.toNat)) where
  consts h h' := .handle (.ok (.word (lshift_is h h') rfl))
  left hz h' := shift_left (isShift_shiftLeft s) hz h'
  right h _ := shift_right (isShift_shiftLeft s) _ h
  same _ _ := .unknown

theorem wordRshift_folds : ∀ {sg : Bool},
    WordsFold env pl (wordRshift s sg) s .shiftArg x c (.word s (rshiftBits sg x c.toNat))
  | false => {
    consts := fun h h' => .handle (.ok (.word (rshift_is h h' _) rfl))
    left := fun hz h' => shift_left (isShift_ushiftRight s) hz h'
    right := fun {_ z} h _ => shift_right (isShift_ushiftRight s) z h
    same := fun _ _ => .unknown }
  | true => {
    consts := fun h h' => .handle (.ok (.word (rshift_is h h' _) rfl))
    left := fun hz h' => .ok (.ite (fun h0 => .var (by
        rw [hz, h'.isZero_iff.mp h0, BitVec.toNat_ofNat, Nat.zero_mod, rshiftBits_zero]))
      fun _ => .when fun h1 => absurd (Bool.and_eq_true_iff.mp h1).2 Bool.false_ne_true)
    right := fun h _ => .ok (.ite (fun h0 => .word (zero_is s) (by
        rw [h.isZero_iff.mp h0, zero_rshiftBits]))
      fun _ => .when fun h1 => .word h (by
        rw [h.isAllOnes_iff.mp (Bool.and_eq_true_iff.mp h1).1, allOnes_rshiftBits]))
    same := fun _ _ => .unknown }

/-- A rotation by a multiple of the width does nothing, nor does one of zero or of ones. -/
structure IsRotation (s : WordSize) (f : BitVec s.bits → ℕ → BitVec s.bits) : Prop where
  of_mod : ∀ x {c}, c % s.bits = 0 → f x c = x
  zero : ∀ c, f 0#s.bits c = 0#s.bits
  allOnes : ∀ c, f (.allOnes s.bits) c = .allOnes s.bits

theorem ro_left {f : BitVec s.bits → ℕ → BitVec s.bits} (hf : IsRotation s f) {z : β} {w : WordX}
    (hz : env z = .word s x) (h : w.Is .shiftArg c) :
    Folds env (ro s z w true) (.word s (f x c.toNat)) := by
  have hpos : BitVec.ofNat WordSize.shiftArg.bits s.bits ≠ 0#_ := fun h0 => by
    have := congrArg BitVec.toNat h0
    rw [toNat_width, BitVec.toNat_ofNat, Nat.zero_mod] at this
    exact s.bits_pos.ne' this
  obtain ⟨r, hr, hrem⟩ := rem_is h (width_is s) false hpos
  unfold ro
  rw [if_pos rfl, h.size, hr]
  refine .when fun h0 => .var ?_
  have hmod := congrArg BitVec.toNat (hrem.isZero_iff.mp h0)
  rw [remBits, if_neg Bool.false_ne_true, BitVec.toNat_umod, toNat_width, BitVec.toNat_ofNat,
    Nat.zero_mod] at hmod
  rw [hz, hf.of_mod x hmod]

theorem ro_right {f : BitVec s.bits → ℕ → BitVec s.bits} (hf : IsRotation s f) (z : β) {w : WordX}
    (h : w.Is s x) : Folds env (ro s z w false) (.word s (f x c.toNat)) := by
  unfold ro
  rw [if_neg Bool.false_ne_true]
  split_ifs with hw
  · refine .ok (.word h ?_)
    obtain h0 | h1 := Bool.or_eq_true_iff.mp hw
    · rw [h.isZero_iff.mp h0, hf.zero]
    · rw [h.isAllOnes_iff.mp h1, hf.allOnes]
  · exact .ok .unknown

theorem isRotation_left (s : WordSize) : IsRotation s BitVec.rotateLeft :=
  ⟨fun x _ => rotateLeft_of_mod x, zero_rotateLeft, allOnes_rotateLeft⟩

theorem isRotation_right (s : WordSize) : IsRotation s BitVec.rotateRight :=
  ⟨fun x _ => rotateRight_of_mod x, zero_rotateRight, allOnes_rotateRight⟩

theorem wordRol_folds :
    WordsFold env pl (wordRol s) s .shiftArg x c (.word s (x.rotateLeft c.toNat)) where
  consts h h' := .handle (.ok (.word (rol_is h h') rfl))
  left hz h' := ro_left (isRotation_left s) hz h'
  right h _ := ro_right (isRotation_left s) _ h
  same _ _ := .unknown

theorem wordRor_folds :
    WordsFold env pl (wordRor s) s .shiftArg x c (.word s (x.rotateRight c.toNat)) where
  consts h h' := .handle (.ok (.word (ror_is h h') rfl))
  left hz h' := ro_left (isRotation_right s) hz h'
  right h _ := ro_right (isRotation_right s) _ h
  same _ _ := .unknown

end Shifts

end MLton.Atoms
