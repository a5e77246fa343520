import MLton.Ssa.RedundantTests
import MLton.Ssa.WordVals

/-!
# Ssa/FactsHold — what facts say, and what tests answer

A fact holds in an environment where its operands have values that the relation is true of.  A comparison
that comes back says whether its fact or the negation holds (`Compares.eval`), never both
(`Holds.not_negate`); and a word that some word of its size is greater than can be added one to.
-/

namespace MLton.Ssa

open MLton.Atoms.WordX MLton.Effects

/-- A boolean. -/
def Val.bool (b : Bool) : Val := .con (if b then Con.truee else Con.falsee) []

theorem Val.bool_inj : ∀ {b b' : Bool}, bool b = bool b' → b = b'
  | true, true, _ | false, false, _ => rfl
  | true, false, h | false, true, h => by simp [bool, Con.truee, Con.falsee] at h

namespace RedundantTests

/-! ## Tests -/

/-- A test of two words of one size. -/
def ofWords (size : ℕ) (test : BitVec size → BitVec size → Bool) : List Val → Option Bool
  | [v, w] => do pure (test (← v.asWord size) (← w.asWord size))
  | _ => none

theorem ofWords_eq_some {size : ℕ} {test : BitVec size → BitVec size → Bool} {vs : List Val} {b : Bool} :
    ofWords size test vs = some b ↔ ∃ x y, vs = [.word size x, .word size y] ∧ test x y = b := by
  constructor
  · intro h
    match vs, h with
    | [v, w], h =>
      obtain ⟨x, hx, h⟩ := Option.bind_eq_some_iff.mp h
      obtain ⟨y, hy, h⟩ := Option.bind_eq_some_iff.mp h
      exact ⟨x, y, by rw [Val.asWord_eq_some.mp hx, Val.asWord_eq_some.mp hy], Option.some.inj h⟩
  · rintro ⟨x, y, rfl, rfl⟩
    simp [ofWords]

/-- What a test answers, where `same` is what `MLton_eq` answers; none to operands that are no words of its
size. -/
def test (same : Val → Val → Bool) : Prim → List Val → Option Bool
  | .mltonEq, [v, w] => some (same v w)
  | .wordEqual size, vs => ofWords size (fun x y => x = y) vs
  | .wordLt size signed, vs => ofWords size (ltBits signed) vs
  | .wordAddCheckP size signed, vs => ofWords size (addCheckBits signed) vs
  | .wordSubCheckP size signed, vs => ofWords size (subCheckBits signed) vs
  | _, _ => none

/-- The tests that the pass knows. -/
def isTest : Prim → Bool
  | .mltonEq | .wordEqual _ | .wordLt _ _ | .wordAddCheckP _ _ | .wordSubCheckP _ _ => true
  | _ => false

/-- Tests answer what they are to answer, and `MLton_eq` compares words by value. -/
structure Tests (W : World) (same : Val → Val → Bool) : Prop where
  prim : ∀ {t prim targs mode vs}, isTest prim = true →
    W.prim t prim targs mode vs = (test same prim vs).map Val.bool
  symm : ∀ v w, same v w = same w v
  word : ∀ {size : ℕ} (x y : BitVec size), same (.word size x) (.word size y) = decide (x = y)

variable {W : World} {same : Val → Val → Bool} {ρ σ : Env} {prim : Prim} {targs : List Ty}
  {mode : Option Mode} {args : List Var} {vs : List Val} {t : Trace}

/-- The result of a test on operands that are bound. -/
theorem Tests.eval (hW : Tests W same) (hprim : isTest prim = true) (hvs : ρ.all args = some vs) :
    ((Exp.primApp prim targs mode args).eval W ρ t).1 =
      (test same prim vs).elim .gone fun b => .value (.bool b) := by
  simp only [Exp.eval, hvs, World.primApp, hW.prim hprim]
  cases test same prim vs <;> rfl

/-! ## Facts -/

/-- The value of an operand. -/
def Oper.value (ρ : Env) : Oper → Option Val
  | .const c => some (.const c)
  | .var x => ρ x

/-- The operand names the variable. -/
def Oper.Mentions (x : Var) : Oper → Prop
  | .const _ => False
  | .var y => y = x

theorem Oper.value_congr {a : Oper} (h : ∀ x, a.Mentions x → ρ x = σ x) : a.value ρ = a.value σ := by
  cases a with
  | const c => rfl
  | var y => exact h y rfl

namespace Fact

/-- The operands are words that the relation is true of. -/
def Words (ρ : Env) (a b : Oper) (r : ∀ {size : ℕ}, BitVec size → BitVec size → Prop) : Prop :=
  ∃ (size : ℕ) (x y : BitVec size), a.value ρ = some (.word size x) ∧ b.value ρ = some (.word size y) ∧ r x y

/-- The fact is true in the environment. -/
def Holds (same : Val → Val → Bool) (ρ : Env) (f : Fact) : Prop :=
  match f.rel with
  | .eq => ∃ v w, f.lhs.value ρ = some v ∧ f.rhs.value ρ = some w ∧ same v w = true
  | .ne => ∃ v w, f.lhs.value ρ = some v ∧ f.rhs.value ρ = some w ∧ same v w = false
  | .lt signed => Words ρ f.lhs f.rhs fun x y => ltBits signed x y = true
  | .le signed => Words ρ f.lhs f.rhs fun x y => ltBits signed y x = false

/-- The fact names the variable. -/
def Mentions (x : Var) (f : Fact) : Prop := f.lhs.Mentions x ∨ f.rhs.Mentions x

theorem mentions_negate {x : Var} {f : Fact} : f.negate.Mentions x ↔ f.Mentions x := or_comm

theorem Holds.congr {f : Fact} (h : f.Holds same ρ) (hρ : ∀ x, f.Mentions x → σ x = ρ x) :
    f.Holds same σ := by
  obtain ⟨rel, a, b⟩ := f
  have ha : a.value σ = a.value ρ := Oper.value_congr fun x hx => hρ x (.inl hx)
  have hb : b.value σ = b.value ρ := Oper.value_congr fun x hx => hρ x (.inr hx)
  cases rel <;> simpa only [Holds, Words, ha, hb] using h

/-- **No fact holds together with its negation.** -/
theorem Holds.not_negate (hsymm : ∀ v w, same v w = same w v) {f : Fact} (h : f.Holds same ρ) :
    ¬ f.negate.Holds same ρ := by
  obtain ⟨rel, a, b⟩ := f
  intro h'
  cases rel with
  | eq | ne =>
    obtain ⟨v, w, hv, hw, hsame⟩ := h
    obtain ⟨w', v', hw', hv', hsame'⟩ := h'
    obtain rfl := Option.some.inj (hv.symm.trans hv')
    obtain rfl := Option.some.inj (hw.symm.trans hw')
    simp [hsymm w v, hsame] at hsame'
  | lt signed | le signed =>
    obtain ⟨size, x, y, hx, hy, hlt⟩ := h
    obtain ⟨size', y', x', hy', hx', hlt'⟩ := h'
    have hxx := Option.some.inj (hx.symm.trans hx')
    have hyy := Option.some.inj (hy.symm.trans hy')
    obtain rfl := Val.size_of_word hxx
    obtain rfl := Val.word_inj hxx
    obtain rfl := Val.word_inj hyy
    exact absurd (hlt.symm.trans hlt') (by decide)

end Fact

/-! ## Comparisons -/

/-- The right-hand side compares what the fact relates, where `K` are the operands that stand for an
argument. -/
inductive Compares (K : Var → Oper → Prop) : Exp → Fact → Prop
  | mltonEq {targs mode args x y a b} : args[0]? = some x → args[1]? = some y → K x a → K y b →
      Compares K (.primApp .mltonEq targs mode args) ⟨.eq, a, b⟩
  | wordEqual {size targs mode args x y a b} : args[0]? = some x → args[1]? = some y → K x a → K y b →
      Compares K (.primApp (.wordEqual size) targs mode args) ⟨.eq, a, b⟩
  | wordLt {size signed targs mode args x y a b} : args[0]? = some x → args[1]? = some y → K x a → K y b →
      Compares K (.primApp (.wordLt size signed) targs mode args) ⟨.lt signed, a, b⟩

/-- **A comparison answers whether its fact holds.** -/
theorem Compares.eval (hW : Tests W same) {K : Var → Oper → Prop} {e : Exp} {f : Fact}
    (h : Compares K e f) (hK : ∀ x ∈ e.vars, ∀ a, K x a → a.value ρ = ρ x) {v : Val} {t' : Trace}
    (heval : e.eval W ρ t = (.value v, t')) :
    ∃ b, v = .bool b ∧ if b then f.Holds same ρ else f.negate.Holds same ρ := by
  -- the operands of a comparison that comes back
  have hargs : ∀ {prim targs mode args x y a b}, isTest prim = true →
      (Exp.primApp prim targs mode args).eval W ρ t = (.value v, t') → args[0]? = some x →
      args[1]? = some y → K x a → K y b → (∀ x ∈ args, ∀ a, K x a → a.value ρ = ρ x) →
      ∃ vs u w r, vs[0]? = some u ∧ vs[1]? = some w ∧ a.value ρ = some u ∧ b.value ρ = some w ∧
        test same prim vs = some r ∧ v = .bool r := by
    intro prim targs mode args x y a b hprim heval hx hy ha hb hK
    cases hvs : ρ.all args with
    | none => simp [Exp.eval, hvs] at heval
    | some vs =>
      obtain ⟨u, hu, hxu⟩ := Env.all_getElem? hvs hx
      obtain ⟨w, hw, hyw⟩ := Env.all_getElem? hvs hy
      have hres := (hW.eval hprim hvs).symm.trans (congrArg Prod.fst heval)
      cases hr : test same prim vs with
      | none => simp [hr] at hres
      | some r =>
        refine ⟨vs, u, w, r, hu, hw, ?_, ?_, hr, ?_⟩
        · rw [hK x (List.mem_of_getElem? hx) a ha, hxu]
        · rw [hK y (List.mem_of_getElem? hy) b hb, hyw]
        · simpa [hr] using hres.symm
  cases h with
  | mltonEq hx hy ha hb =>
    obtain ⟨vs, u, w, r, hu, hw, hau, hbw, hr, rfl⟩ := hargs rfl heval hx hy ha hb hK
    match vs, hr with
    | [u', w'], hr =>
      obtain rfl : u' = u := by simpa using hu
      obtain rfl : w' = w := by simpa using hw
      obtain rfl : same u' w' = r := by simpa [test] using hr
      refine ⟨_, rfl, ?_⟩
      cases hsame : same u' w'
      · exact ⟨w', u', hbw, hau, (hW.symm w' u').trans hsame⟩
      · exact ⟨u', w', hau, hbw, hsame⟩
  | wordEqual hx hy ha hb =>
    obtain ⟨vs, u, w, r, hu, hw, hau, hbw, hr, rfl⟩ := hargs rfl heval hx hy ha hb hK
    obtain ⟨x', y', rfl, rfl⟩ := ofWords_eq_some.mp hr
    obtain rfl := Option.some.inj hu
    obtain rfl := Option.some.inj hw
    refine ⟨_, rfl, ?_⟩
    by_cases hxy : x' = y'
    · rw [decide_eq_true hxy]
      exact ⟨_, _, hau, hbw, (hW.word x' y').trans (decide_eq_true hxy)⟩
    · rw [decide_eq_false hxy]
      exact ⟨_, _, hbw, hau, (hW.word y' x').trans (decide_eq_false (Ne.symm hxy))⟩
  | wordLt hx hy ha hb =>
    obtain ⟨vs, u, w, r, hu, hw, hau, hbw, hr, rfl⟩ := hargs rfl heval hx hy ha hb hK
    obtain ⟨x', y', rfl, rfl⟩ := ofWords_eq_some.mp hr
    obtain rfl := Option.some.inj hu
    obtain rfl := Option.some.inj hw
    refine ⟨_, rfl, ?_⟩
    split
    · next hlt => exact ⟨_, x', y', hau, hbw, hlt⟩
    · next hlt => exact ⟨_, y', x', hbw, hau, Bool.eq_false_iff.mpr hlt⟩

end RedundantTests

end MLton.Ssa
