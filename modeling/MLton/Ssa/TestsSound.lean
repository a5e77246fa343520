import MLton.Ssa.FactsFound
import MLton.Ssa.InPlace

/-!
# Ssa/TestsSound — replaced tests have the outcome that replaces them

The facts of the labels that dominate an activation's block hold in its environment (`informed_kept`): they
do when control comes in from the case, and nothing that they name is bound again before control leaves
what the label dominates (`Known.not_binds`).
-/

namespace MLton.Ssa.RedundantTests

open MLton.Atoms.WordX MLton.Effects MLton.Ssa.Function MLton.Dominance

/-! ## Labels with one predecessor -/

section Labels

variable {f : Function} {l : Label} {b b' : Block}

theorem eq_of_inDeg (h : inDeg f l = 1) (hb : b ∈ f.blocks) (hl : l ∈ b.transfer.labels) :
    f.start ≠ l ∧ b.transfer.labels.count l = 1 ∧
      ∀ b' ∈ f.blocks, l ∈ b'.transfer.labels → b' = b := by
  obtain ⟨s, t, hst⟩ := List.append_of_mem hb
  simp only [inDeg, hst, List.count_cons, List.flatMap_append, List.flatMap_cons, List.count_append] at h
  have hpos : 0 < b.transfer.labels.count l := List.count_pos_iff.mpr hl
  refine ⟨fun heq => ?_, by omega, fun b' hb' hl' => ?_⟩
  · simp only [heq, beq_self_eq_true, if_true] at h
    omega
  · have hpos' : 0 < b'.transfer.labels.count l := List.count_pos_iff.mpr hl'
    rw [hst, List.mem_append, List.mem_cons] at hb'
    obtain hs | rfl | ht := hb'
    · have : 0 < (s.flatMap fun b => b.transfer.labels).count l :=
        List.count_pos_iff.mpr (List.mem_flatMap.mpr ⟨b', hs, hl'⟩)
      omega
    · rfl
    · have : 0 < (t.flatMap fun b => b.transfer.labels).count l :=
        List.count_pos_iff.mpr (List.mem_flatMap.mpr ⟨b', ht, hl'⟩)
      omega

theorem mem_of_falseTrue {cases : Cases} {default : Option Label} {ls : Label × Label}
    (h : falseTrue cases default = some ls) :
    ls.1 ∈ cases.labels ++ default.toList ∧ ls.2 ∈ cases.labels ++ default.toList := by
  unfold falseTrue at h
  split at h
  · obtain rfl := Option.some.inj h
    split <;> simp [Cases.labels]
  · obtain rfl := Option.some.inj h
    split <;> simp [Cases.labels]
  · cases h

/-- Where a case on a boolean goes, if its arms are for booleans and nothing else goes there. -/
theorem target_bool {arms : List (Con × Label)} {default : Option Label} {ls : Label × Label} {b : Bool}
    {vs : List Val} (h : falseTrue (.con arms) default = some ls)
    (harms : ∀ arm ∈ arms, arm.1 = Con.truee ∨ arm.1 = Con.falsee)
    (htarget : (Cases.con arms).target (.bool b) default = some (l, vs))
    (hcount : ((Cases.con arms).labels ++ default.toList).count l = 1) :
    vs = [] ∧ (l = ls.1 → b = false) ∧ (l = ls.2 → b = true) := by
  have hne : Con.falsee ≠ Con.truee := by decide
  unfold falseTrue at h
  split at h
  · next c l₁ l₂ heq =>
    cases heq
    obtain rfl := Option.some.inj h
    obtain rfl | rfl : c = Con.truee ∨ c = Con.falsee := harms _ (List.mem_cons_self ..)
    all_goals
      cases b <;> simp [Cases.target, conArm, Val.bool, hne, hne.symm, Cases.labels, List.count_cons]
        at htarget hcount ⊢ <;> grind
  · next c l₁ c' l₂ heq =>
    cases heq
    obtain rfl := Option.some.inj h
    obtain rfl | rfl : c = Con.truee ∨ c = Con.falsee := harms _ (List.mem_cons_self ..)
    all_goals
      obtain rfl | rfl : c' = Con.truee ∨ c' = Con.falsee := harms (c', l₂) (by simp)
      all_goals
        cases b <;> simp [Cases.target, conArm, Val.bool, hne, hne.symm, Cases.labels, List.count_cons]
          at htarget hcount ⊢ <;> grind
  · cases h

end Labels

/-! ## What a fact names -/

section Names

variable {gs : List Statement} {p : Program} {f : Function} {x y : Var} {l d L : Label} {b : Block}
  {e : Exp} {fact : Fact} {i : ℕ}

/-- The variables that globals bind. -/
def globalVars (gs : List Statement) : List Var := gs.filterMap Statement.var

theorem Operand.mentions {a : Oper} (h : Operand gs p x a) (hy : a.Mentions y) : y = x := by
  obtain rfl | ⟨c, rfl, -⟩ := h
  · exact hy.symm
  · exact hy.elim

/-- A fact names arguments of its comparison. -/
theorem Compares.mem_vars (h : Compares (Operand gs p) e fact) (hy : fact.Mentions y) : y ∈ e.vars := by
  cases h with
  | mltonEq hx hx' ha ha' | wordEqual hx hx' ha ha' | wordLt hx hx' ha ha' =>
    obtain hy | hy := hy
    · exact ha.mentions hy ▸ List.mem_of_getElem? hx
    · exact ha'.mentions hy ▸ List.mem_of_getElem? hx'

variable (hscoped : p.Scoped (globalVars gs)) (hf : f ∈ p.functions)

include hscoped hf

/-- **The case that a fact comes from**: its test is defined as the comparison, in the same function. -/
theorem Known.case (h : Known gs p f l fact) : ∃ d b test cases default ls fact₀ q e, inDeg f l = 1 ∧
    f.Visited d ∧ f.block? d = some b ∧ b.transfer = .case test cases default ∧
    falseTrue cases default = some ls ∧ l ∈ b.transfer.labels ∧ f.DefinedAs test e q ∧
    Compares (Operand gs p) e fact₀ ∧ f.InScope (globalVars gs) test (d, b.statements.length) ∧
    (l = ls.1 ∧ fact = fact₀.negate ∨ l = ls.2 ∧ fact = fact₀) := by
  obtain ⟨hdeg, d, b, test, cases, default, ls, fact₀, hd, hb, htr, hls, ⟨g, hg, q, e, hdef, hcomp⟩, hcase⟩ := h
  have hfs := hscoped.functions f hf
  have htest := hfs.transfer hb (x := test) (by simp [htr, Transfer.vars])
  obtain rfl := hscoped.eq_of_definedAs hf hg ((Function.reachable_iff hb (Nat.le_refl _)).mpr hd) htest hdef
  refine ⟨d, b, test, cases, default, ls, fact₀, q, e, hdeg, hd, hb, htr, hls, ?_, hdef, hcomp, htest, hcase⟩
  have hmem := mem_of_falseTrue hls
  rw [htr]
  obtain ⟨rfl, -⟩ | ⟨rfl, -⟩ := hcase
  exacts [hmem.1, hmem.2]

omit hscoped hf in
/-- A label does not dominate its only predecessor. -/
theorem not_dominates_pred (hd : f.Visited d) (hb : f.block? d = some b) (hdeg : inDeg f l = 1)
    (hl : l ∈ b.transfer.labels) : ¬ f.LabelDominates l d := by
  obtain ⟨hstart, -, honly⟩ := eq_of_inDeg hdeg (block?_mem hb) hl
  intro hdom
  obtain hav | ⟨w, rfl, hfirst⟩ := avoids_or_exists_first (· = l) hd
  · exact hdom hav
  · obtain ⟨u, hu, huw⟩ := hfirst.resolve_left (Ne.symm hstart)
    have huw := edge_controlFlow.mp huw
    unfold succs at huw
    split at huw
    · next b' hb' =>
      obtain rfl := honly b' (block?_mem hb') huw
      exact hdom ((block?_label hb).symm.trans (block?_label hb') ▸ hu)
    · cases huw

/-- **Nothing that a fact names is bound** where its label dominates. -/
theorem Known.not_binds (h : Known gs p f l fact) (hy : fact.Mentions y) (hdom : f.LabelDominates l L) :
    ¬ f.Binds y (L, i) := by
  have hfs := hscoped.functions f hf
  obtain ⟨d, b, test, cases, default, ls, fact₀, q, e, hdeg, hd, hb, htr, -, hl, hdef, hcomp, htest, hcase⟩ :=
    h.case hscoped hf
  have hy₀ : fact₀.Mentions y := by
    obtain ⟨-, rfl⟩ | ⟨-, rfl⟩ := hcase
    exacts [Fact.mentions_negate.mp hy, hy]
  have hscope := hfs.inScope_trans hdef htest (hfs.inScope_of_definedAs hdef (hcomp.mem_vars hy₀))
  have hnot := not_dominates_pred hd hb hdeg hl
  intro hbinds
  obtain hgiven | ⟨d', j, hbinds', hcase'⟩ := (hfs.inScope_iff hd hb (Nat.le_refl _)).mp hscope
  · exact hfs.not_given hbinds hgiven
  · obtain ⟨rfl, -⟩ := Prod.mk.inj (hfs.unique (.inl hbinds) (.inl hbinds'))
    obtain ⟨rfl, -⟩ | ⟨-, hdom'⟩ := hcase'
    · exact hnot hdom
    · exact hnot (hdom.trans hdom')

end Names

/-! ## Runs -/

/-- The right-hand side is a comparison. -/
def IsComparison (e : Exp) : Prop :=
  ∃ prim targs mode args, e = .primApp prim targs mode args ∧
    (prim = .mltonEq ∨ (∃ size, prim = .wordEqual size) ∨ ∃ size signed, prim = .wordLt size signed)

theorem Compares.isComparison {K : Var → Oper → Prop} {e : Exp} {fact : Fact} (h : Compares K e fact) :
    IsComparison e := by
  cases h with
  | mltonEq => exact ⟨_, _, _, _, rfl, .inl rfl⟩
  | wordEqual => exact ⟨_, _, _, _, rfl, .inr (.inl ⟨_, rfl⟩)⟩
  | wordLt => exact ⟨_, _, _, _, rfl, .inr (.inr ⟨_, _, rfl⟩)⟩

/-- A case on a comparison has arms for booleans, as the type checker sees to. -/
def BoolCases (p : Program) : Prop :=
  ∀ f ∈ p.functions, ∀ b ∈ f.blocks, ∀ test cases default, b.transfer = .case test cases default →
    ∀ e q, f.DefinedAs test e q → IsComparison e →
    ∀ arms, cases = .con arms → ∀ arm ∈ arms, arm.1 = Con.truee ∨ arm.1 = Con.falsee

/-- The globals are bound, and those that are constants to these. -/
def GlobalsHold (gs : List Statement) (G : Env) : Prop :=
  ∀ s ∈ gs, ∀ x, s.var = some x → ∃ v, G x = some v ∧ ∀ c, s.exp = .const c → v = .const c

theorem GlobalsHold.bound {gs : List Statement} {G : Env} (h : GlobalsHold gs G) :
    ∀ x ∈ globalVars gs, ∃ v, G x = some v := by
  intro x hx
  obtain ⟨s, hs, hsx⟩ := List.mem_filterMap.mp hx
  obtain ⟨v, hv, -⟩ := h s hs x hsx
  exact ⟨v, hv⟩

/-- What an activation keeps: the facts of the labels that dominate it hold. -/
structure Informed (W : World) (same : Val → Val → Bool) (gs : List Statement) (G : Env)
    (p : Program) (fr : Frame) : Prop extends Frame.Defined W (globalVars gs) p fr where
  globals : ∀ x ∈ globalVars gs, fr.env x = G x
  known : ∀ {l fact}, Known gs p fr.func l fact → fr.func.LabelDominates l fr.label →
    fact.Holds same fr.env

section Runs

variable {W : World} {same : Val → Val → Bool} {gs : List Statement} {G : Env} {p : Program} {fr : Frame}
  (hscoped : p.Scoped (globalVars gs)) (hG : GlobalsHold gs G)

include hscoped hG

/-- An operand has the value of the argument it stands for. -/
theorem operand_value (hfr : fr.Defined W (globalVars gs) p)
    (hglobals : ∀ x ∈ globalVars gs, fr.env x = G x) {x : Var} {a : Oper} (ha : Operand gs p x a)
    (hx : fr.func.InScope (globalVars gs) x (fr.label, fr.index)) : a.value fr.env = fr.env x := by
  obtain rfl | ⟨c, rfl, ⟨s, hs, hsx, hc⟩ | ⟨g, hg, q, hdef⟩⟩ := ha
  · rfl
  · obtain ⟨v, hv, hconst⟩ := hG s hs x hsx
    rw [hglobals x (List.mem_filterMap.mpr ⟨s, hs, hsx⟩), hv, hconst c hc]
    rfl
  · obtain rfl := hscoped.eq_of_definedAs hfr.func hg hfr.reach hx hdef
    obtain ⟨v, t, t', hv, heval⟩ := hfr.defined hdef hx
    obtain ⟨hval, -⟩ := Prod.mk.inj heval
    rw [hv, ← Result.value.inj hval]
    rfl

/-- **A fact holds where control comes in from its case.** -/
theorem Known.holds (hW : Tests W same) (hbool : BoolCases p) (hfr : Informed W same gs G p fr) {b : Block}
    (hb : fr.func.block? fr.label = some b) (hnone : b.statements[fr.index]? = none) {l : Label}
    {vs : List Val} {fact : Fact} (h : Known gs p fr.func l fact) {I : Frame → Prop}
    (hpass : b.transfer.Passes p I fr.env l vs) : vs = [] ∧ fact.Holds same fr.env := by
  obtain ⟨d, b', test, cases, default, ls, fact₀, q, e, hdeg, hd, hb', htr, hls, hl, hdef, hcomp, htest, hcase⟩ :=
    h.case hscoped hfr.func
  obtain ⟨-, hcount, honly⟩ := eq_of_inDeg hdeg (block?_mem hb') hl
  obtain rfl := honly b (block?_mem hb) hpass.mem_labels
  obtain rfl : fr.label = d := (block?_label hb).symm.trans (block?_label hb')
  rw [htr] at hpass
  rw [← hfr.toDefined.index hb hnone] at htest
  cases hpass with
  | case hv htarget =>
    have hf := hscoped.functions _ hfr.func
    obtain ⟨v, t, t', hv', heval⟩ := hfr.defined hdef htest
    obtain rfl := Option.some.inj (hv.symm.trans hv')
    obtain ⟨r, rfl, hr⟩ := hcomp.eval hW (fun x hx a ha => operand_value hscoped hG hfr.toDefined
      hfr.globals ha (hf.inScope_trans hdef htest (hf.inScope_of_definedAs hdef hx))) heval
    cases cases with
    | word => simp [falseTrue] at hls
    | con arms =>
      have harms := hbool _ hfr.func b (block?_mem hb) test _ default htr e q hdef hcomp.isComparison arms rfl
      rw [htr] at hcount
      obtain ⟨rfl, hfalse, htrue⟩ := target_bool hls harms htarget hcount
      refine ⟨rfl, ?_⟩
      obtain ⟨rfl, rfl⟩ | ⟨rfl, rfl⟩ := hcase
      · rw [hfalse rfl] at hr
        exact hr
      · rw [htrue rfl] at hr
        exact hr

/-- **Activations stay informed.** -/
theorem informed_kept (hW : Tests W same) (hbool : BoolCases p) :
    Kept W p G (Informed W same gs G p) where
  activate {f vs fr} hf h := by
    have hfr : fr.Global W (globalVars gs) G p := .activate hscoped hG.bound hf.mem h
    obtain ⟨hlen, h⟩ := Option.ite_none_right_eq_some.mp h
    obtain rfl := Option.some.inj h
    refine ⟨hfr.toDefined, hfr.globals, fun {l fact} hknown hdom => ?_⟩
    -- no fact is of the start
    obtain ⟨d, b, _, _, _, _, _, _, _, hdeg, -, hb, -, -, hl, -⟩ := hknown.case hscoped hf.mem
    obtain ⟨hstart, -⟩ := eq_of_inDeg hdeg (block?_mem hb) hl
    exact (hdom (.root hstart)).elim
  advance {fr b s t v t'} hfr hb hs heval := by
    have hfr' := Frame.Global.advance hscoped ⟨hfr.toDefined, hfr.globals⟩ hb hs heval
    refine ⟨hfr'.toDefined, hfr'.globals, fun {l fact} hknown hdom => ?_⟩
    refine (hfr.known hknown hdom).congr fun y hy => ?_
    cases hvar : s.var with
    | none => simp [Frame.advance, hvar]
    | some z =>
      simp only [Frame.advance, hvar, Option.elim_some]
      refine Env.set_of_ne ?_
      rintro rfl
      exact hknown.not_binds hscoped hfr.func hy hdom (.statement hb hs hvar)
  enter {fr tr l vs fr'} hfr hat hpass henter := by
    have hfr' := Frame.Global.enter hscoped ⟨hfr.toDefined, hfr.globals⟩ hat hpass henter
    obtain ⟨b, hb, hnone, rfl⟩ := hat
    obtain ⟨b', hb', henter⟩ := Option.bind_eq_some_iff.mp henter
    obtain ⟨hlen, henter⟩ := Option.ite_none_right_eq_some.mp henter
    obtain rfl := Option.some.inj henter
    refine ⟨hfr'.toDefined, hfr'.globals, fun {l' fact} hknown hdom => ?_⟩
    by_cases hl : l = l'
    · subst hl
      obtain ⟨rfl, hholds⟩ := Known.holds hscoped hG hW hbool hfr hb hnone hknown hpass
      rw [List.length_eq_zero_iff.mp hlen]
      exact hholds
    · have hedge : Dfs.Edge fr.func.controlFlow.successors fr.label l :=
        edge_controlFlow.mpr (by rw [succs_of_block? hb]; exact hpass.mem_labels)
      refine (hfr.known hknown (hdom.pred hedge hl)).congr fun y hy => ?_
      exact Env.sets_of_notMem fun hmem =>
        hknown.not_binds hscoped hfr.func hy hdom (.formal hb' hmem)

end Runs

/-! ## What is found on the way up -/

section Outcomes

variable {W : World} {same : Val → Val → Bool} {gs : List Statement} {G : Env} {p : Program} {fr : Frame}
  {s : Info} {n : ℕ} {l : Label} {x y : Var} {size : ℕ} {signed : Bool}

/-- Some fact of a label that dominates this one passes the test. -/
theorem isFact_sound {f : Function} (hs : s.Sound gs p f) {test : Fact → Option Bool} :
    ∀ {n : ℕ} {l : Label}, s.isFact test n l = some true →
      ∃ l' fact, Known gs p f l' fact ∧ f.LabelDominates l' l ∧ test fact = some true
  | n + 1, l, h => by
    obtain ⟨found, hfound, h⟩ := Option.bind_eq_some_iff.mp h
    cases found with
    | true =>
      have hexists : ∀ {facts : List Fact}, Info.existsFact test facts = some true →
          ∃ fact ∈ facts, test fact = some true := by
        intro facts hfacts
        induction facts with
        | nil => cases hfacts
        | cons fact facts ih =>
          obtain ⟨b, hb, hfacts⟩ := Option.bind_eq_some_iff.mp hfacts
          cases b with
          | true => exact ⟨fact, List.mem_cons_self .., hb⟩
          | false =>
            obtain ⟨fact', hmem, htest⟩ := ih hfacts
            exact ⟨fact', List.mem_cons_of_mem _ hmem, htest⟩
      obtain ⟨fact, hmem, htest⟩ := hexists hfound
      exact ⟨l, fact, hs.facts hmem, dominates_refl, htest⟩
    | false =>
      simp only [Bool.false_eq_true, if_false] at h
      cases ha : s.ancestor l with
      | none => simp [ha] at h
      | some a =>
        rw [ha] at h
        obtain ⟨l', fact, hknown, hdom, htest⟩ := isFact_sound hs h
        exact ⟨l', fact, hknown, hdom.trans (hs.ancestor ha).2, htest⟩

/-- What is determined is a fact of a label that dominates this one, or the negation of one. -/
theorem determine_sound {f : Function} (hs : s.Sound gs p f) {fact : Fact} :
    ∀ {n : ℕ} {l : Label} {r : Result}, s.determine fact n l = some r → r ≠ .unknown →
      ∃ l', f.LabelDominates l' l ∧
        (r = .true ∧ Known gs p f l' fact ∨ r = .false ∧ Known gs p f l' fact.negate)
  | n + 1, l, r, h, hr => by
    rw [Info.determine] at h
    unfold Fact.determine at h
    by_cases hmem : fact ∈ s.facts l
    · rw [if_pos hmem] at h
      exact ⟨l, dominates_refl, .inl ⟨(Option.some.inj h).symm, hs.facts hmem⟩⟩
    · rw [if_neg hmem] at h
      by_cases hmem' : fact.negate ∈ s.facts l
      · rw [if_pos hmem'] at h
        exact ⟨l, dominates_refl, .inr ⟨(Option.some.inj h).symm, hs.facts hmem'⟩⟩
      · rw [if_neg hmem'] at h
        cases ha : s.ancestor l with
        | none =>
          simp only [ha] at h
          exact absurd (Option.some.inj h).symm hr
        | some a =>
          simp only [ha] at h
          obtain ⟨l', hdom, hcase⟩ := determine_sound hs h hr
          exact ⟨l', hdom.trans (hs.ancestor ha).2, hcase⟩

/-- The variable is a word that some word is greater than. -/
def Below (ρ : Env) (x : Var) (signed : Bool) : Prop :=
  ∃ (size : ℕ) (a b : BitVec size), ρ x = some (.word size a) ∧ ltBits signed a b = true

/-- The variable is a word that is greater than some word. -/
def Above (ρ : Env) (x : Var) (signed : Bool) : Prop :=
  ∃ (size : ℕ) (a b : BitVec size), ρ x = some (.word size a) ∧ ltBits signed b a = true

theorem word_of_const {size' value : ℕ} {a : BitVec size}
    (h : some (Val.const (.word size' value)) = some (.word size a)) : size' = size ∧ a.toNat = value := by
  simp only [Val.word, Option.some.injEq, Val.const.injEq, Const.word.injEq] at h
  exact ⟨h.1, h.2.symm⟩

theorem add1Fact_sound {ρ : Env} {fact : Fact} (h : add1Fact x size signed fact = some true)
    (hfact : fact.Holds same ρ) : Below ρ x signed := by
  unfold add1Fact at h
  split at h
  · next signed' x' b =>
    simp only [Option.some.injEq, Bool.and_eq_true, decide_eq_true_eq] at h
    obtain ⟨rfl, rfl⟩ := h
    obtain ⟨size', u, w, hu, -, hlt⟩ := hfact
    exact ⟨size', u, w, hu, hlt⟩
  · next signed' x' c =>
    split at h
    · next heq =>
      obtain ⟨rfl, rfl⟩ := heq
      obtain ⟨size', u, w, hu, hw, hle⟩ := hfact
      split at h
      · next size'' value =>
        obtain ⟨rfl, hval⟩ := word_of_const hw
        unfold ltWord at h
        obtain ⟨rfl, h⟩ := Option.ite_none_right_eq_some.mp h
        obtain rfl : w = .ofNat size'' value := by simp [← hval]
        exact ⟨_, u, _, hu, ltBits_of_le_of_lt hle (Option.some.inj h)⟩
      · cases h
    · cases h
  · cases h

theorem sub1Fact_sound {ρ : Env} {fact : Fact} (h : sub1Fact x size signed fact = some true)
    (hfact : fact.Holds same ρ) : Above ρ x signed := by
  unfold sub1Fact at h
  split at h
  · next signed' a x' =>
    simp only [Option.some.injEq, Bool.and_eq_true, decide_eq_true_eq] at h
    obtain ⟨rfl, rfl⟩ := h
    obtain ⟨size', u, w, -, hw, hlt⟩ := hfact
    exact ⟨size', w, u, hw, hlt⟩
  · next signed' c x' =>
    split at h
    · next heq =>
      obtain ⟨rfl, rfl⟩ := heq
      obtain ⟨size', u, w, hu, hw, hle⟩ := hfact
      split at h
      · next size'' value =>
        obtain ⟨rfl, hval⟩ := word_of_const hu
        unfold gtWord at h
        obtain ⟨rfl, h⟩ := Option.ite_none_right_eq_some.mp h
        obtain rfl : u = .ofNat size'' value := by simp [← hval]
        exact ⟨_, w, _, hw, ltBits_of_lt_of_le (Option.some.inj h) hle⟩
      · cases h
    · cases h
  · cases h

theorem Below.of_word {ρ : Env} {a : BitVec size} (h : Below ρ x signed) (hx : ρ x = some (.word size a)) :
    ∃ b, ltBits signed a b = true := by
  obtain ⟨size', a', b, ha, hlt⟩ := h
  have heq := Option.some.inj (hx.symm.trans ha)
  obtain rfl := Val.size_of_word heq
  obtain rfl := Val.word_inj heq
  exact ⟨b, hlt⟩

theorem Above.of_word {ρ : Env} {a : BitVec size} (h : Above ρ x signed) (hx : ρ x = some (.word size a)) :
    ∃ b, ltBits signed b a = true := by
  obtain ⟨size', a', b, ha, hlt⟩ := h
  have heq := Option.some.inj (hx.symm.trans ha)
  obtain rfl := Val.size_of_word heq
  obtain rfl := Val.word_inj heq
  exact ⟨b, hlt⟩

variable (hfr : Informed W same gs G p fr) (hs : s.Sound gs p fr.func)

include hfr hs

theorem add1_sound {b : Bool} (h : add1 s n fr.label x size signed = some (some b)) :
    b = false ∧ Below fr.env x signed := by
  obtain ⟨found, hfound, h⟩ := Option.bind_eq_some_iff.mp h
  cases found with
  | false => cases h
  | true =>
    obtain ⟨l, fact, hknown, hdom, htest⟩ := isFact_sound hs hfound
    exact ⟨(Option.some.inj (Option.some.inj h)).symm, add1Fact_sound htest (hfr.known hknown hdom)⟩

theorem sub1_sound {b : Bool} (h : sub1 s n fr.label x size signed = some (some b)) :
    b = false ∧ Above fr.env x signed := by
  obtain ⟨found, hfound, h⟩ := Option.bind_eq_some_iff.mp h
  cases found with
  | false => cases h
  | true =>
    obtain ⟨l, fact, hknown, hdom, htest⟩ := isFact_sound hs hfound
    exact ⟨(Option.some.inj (Option.some.inj h)).symm, sub1Fact_sound htest (hfr.known hknown hdom)⟩

/-- **A check that adds a constant** fails where the pass says so. -/
theorem add_sound {c : Const} {b : Bool} {a z : BitVec size} (hsize : 2 ≤ size)
    (h : add s n fr.label c x size signed = some (some b)) (hx : fr.env x = some (.word size a))
    (hc : Val.const c = .word size z) : b = false ∧ addCheckBits signed a z = false := by
  unfold add at h
  split at h
  · next size' value =>
    obtain ⟨rfl, hval⟩ := word_of_const (congrArg some hc)
    split at h
    · next hone =>
      obtain ⟨rfl, hbelow⟩ := add1_sound hfr hs h
      obtain ⟨w, hlt⟩ := hbelow.of_word hx
      obtain rfl : z = BitVec.ofNat size' 1 := BitVec.eq_of_toNat_eq (by
        rw [hval, BitVec.toNat_one (by omega)]
        simpa [isOne] using hone)
      exact ⟨rfl, addCheckBits_one hsize hlt⟩
    · split at h
      · next hneg =>
        obtain ⟨rfl, hneg⟩ := (Bool.and_eq_true _ _).mp hneg
        obtain ⟨rfl, habove⟩ := sub1_sound hfr hs h
        obtain ⟨w, hlt⟩ := habove.of_word hx
        obtain rfl : z = .ofNat size' value := by simp [← hval]
        exact ⟨rfl, addCheckBits_negOne (by simpa [isNegOne] using hneg) hlt⟩
      · cases h
  · cases h

/-- **Checks that the pass replaces** fail. -/
theorem checkPrimApp_sound (hscoped : p.Scoped (globalVars gs)) (hG : GlobalsHold gs G) {prim : Prim}
    {args : List Var} {b : Bool} (hargs : ∀ x ∈ args, fr.func.InScope (globalVars gs) x (fr.label, fr.index))
    (hsize : ∀ size signed, prim = .wordAddCheckP size signed ∨ prim = .wordSubCheckP size signed → 2 ≤ size)
    (h : checkPrimApp s n fr.label args prim = some (some b)) :
    isTest prim = true ∧ ∀ vs r, fr.env.all args = some vs → test same prim vs = some r → r = b := by
  -- what the pass takes for a constant is one
  have hconst : ∀ {x c}, x ∈ args → s.varInfo.get x = .const c → fr.env x = some (.const c) := by
    intro x c hx hc
    have hinfo := hs.varInfo x
    rw [hc] at hinfo
    exact (operand_value hscoped hG hfr.toDefined hfr.globals (.inr ⟨c, rfl, hinfo⟩) (hargs x hx)).symm
  -- the operands of a test of words
  have hwords : ∀ {size : ℕ} {op : BitVec size → BitVec size → Bool} {x₁ x₂ : Var} {vs : List Val} {r : Bool},
      args[0]? = some x₁ → args[1]? = some x₂ → fr.env.all args = some vs → ofWords size op vs = some r →
      ∃ a c, fr.env x₁ = some (.word size a) ∧ fr.env x₂ = some (.word size c) ∧ op a c = r := by
    intro size op x₁ x₂ vs r hx₁ hx₂ hvs hr
    obtain ⟨a, c, rfl, hop⟩ := ofWords_eq_some.mp hr
    obtain ⟨v₁, hv₁, hxv₁⟩ := Env.all_getElem? hvs hx₁
    obtain ⟨v₂, hv₂, hxv₂⟩ := Env.all_getElem? hvs hx₂
    obtain rfl := Option.some.inj hv₁
    obtain rfl := Option.some.inj hv₂
    exact ⟨a, c, hxv₁, hxv₂, hop⟩
  unfold checkPrimApp at h
  split at h
  · next size signed =>
    obtain ⟨x₁, hx₁, h⟩ := Option.bind_eq_some_iff.mp h
    obtain ⟨x₂, hx₂, h⟩ := Option.bind_eq_some_iff.mp h
    refine ⟨rfl, fun vs r hvs hr => ?_⟩
    obtain ⟨a, c, ha, hc, rfl⟩ := hwords hx₁ hx₂ hvs hr
    split at h
    · next k hk =>
      have heq := Option.some.inj ((hconst (List.mem_of_getElem? hx₁) hk).symm.trans ha)
      obtain ⟨rfl, hcheck⟩ := add_sound hfr hs (hsize _ _ (.inl rfl)) h hc heq
      rw [addCheckBits_comm, hcheck]
    · split at h
      · next k hk =>
        have heq := Option.some.inj ((hconst (List.mem_of_getElem? hx₂) hk).symm.trans hc)
        obtain ⟨rfl, hcheck⟩ := add_sound hfr hs (hsize _ _ (.inl rfl)) h ha heq
        exact hcheck
      · cases h
  · next size signed =>
    obtain ⟨x₁, hx₁, h⟩ := Option.bind_eq_some_iff.mp h
    obtain ⟨x₂, hx₂, h⟩ := Option.bind_eq_some_iff.mp h
    refine ⟨rfl, fun vs r hvs hr => ?_⟩
    obtain ⟨a, c, ha, hc, rfl⟩ := hwords hx₁ hx₂ hvs hr
    split at h
    · next k hk =>
      have heq := (hconst (List.mem_of_getElem? hx₂) hk).symm.trans hc
      split at h
      · next size' value =>
        obtain ⟨rfl, hval⟩ := word_of_const heq
        have hsize := hsize _ _ (.inr rfl)
        split at h
        · next hone =>
          obtain ⟨rfl, habove⟩ := sub1_sound hfr hs h
          obtain ⟨w, hlt⟩ := habove.of_word ha
          obtain rfl : c = BitVec.ofNat size' 1 := BitVec.eq_of_toNat_eq (by
            rw [hval, BitVec.toNat_one (by omega)]
            simpa [isOne] using hone)
          exact subCheckBits_one hsize hlt
        · split at h
          · next hneg =>
            obtain ⟨rfl, hneg⟩ := (Bool.and_eq_true _ _).mp hneg
            obtain ⟨rfl, hbelow⟩ := add1_sound hfr hs h
            obtain ⟨w, hlt⟩ := hbelow.of_word ha
            obtain rfl : c = .ofNat size' value := by simp [← hval]
            exact subCheckBits_negOne (by simpa [isNegOne] using hneg) hlt
          · cases h
      · cases h
    · cases h
  · cases h

/-- **An outcome that is known** is what the test answers, if it answers. -/
theorem outcome_sound (hscoped : p.Scoped (globalVars gs)) (hG : GlobalsHold gs G) (hW : Tests W same)
    {b : Block} {st : Statement} (hb : fr.func.block? fr.label = some b)
    (hst : b.statements[fr.index]? = some st) (hx : st.var = some x)
    (hsize : ∀ size signed targs mode args,
      st.exp = .primApp (.wordAddCheckP size signed) targs mode args ∨
        st.exp = .primApp (.wordSubCheckP size signed) targs mode args → 2 ≤ size)
    {r : Bool} (h : outcome s n fr.label x st.exp = some (some r)) :
    ∃ prim targs mode args vs, st.exp = .primApp prim targs mode args ∧ isTest prim = true ∧
      fr.env.all args = some vs ∧ ∀ r', test same prim vs = some r' → r' = r := by
  have hf := hscoped.functions _ hfr.func
  have hdef := DefinedAs.of_statement hb hst hx
  have hscope : ∀ {y}, y ∈ st.exp.vars → fr.func.InScope (globalVars gs) y (fr.label, fr.index) :=
    fun hy => hf.inScope_of_definedAs hdef hy
  have hall : ∀ {prim targs mode args}, st.exp = .primApp prim targs mode args →
      ∃ vs, fr.env.all args = some vs := fun he => Fold.mapM_total fun y hy =>
    hfr.bound (hscope (by rw [he]; exact hy))
  have hinfo := hs.varInfo x
  unfold outcome at h
  split at h
  · next f₀ f₁ hor =>
    rw [hor] at hinfo
    exact hinfo.elim
  · next fact hfact =>
    rw [hfact] at hinfo
    obtain ⟨g, hg, q, e, hdef', hcomp⟩ := hinfo
    obtain rfl := hscoped.apart g hg _ hfr.func hdef'.binds hdef.binds
    obtain ⟨-, rfl⟩ := hf.definedAs_unique hdef' hdef
    obtain ⟨prim, targs, mode, args, he, hprim⟩ := hcomp.isComparison
    obtain ⟨vs, hvs⟩ := hall he
    have htest : isTest prim = true := by
      obtain rfl | ⟨size, rfl⟩ | ⟨size, signed, rfl⟩ := hprim <;> rfl
    refine ⟨prim, targs, mode, args, vs, he, htest, hvs, fun r' hr' => ?_⟩
    have heval : st.exp.eval W fr.env [] = (.value (.bool r'), (st.exp.eval W fr.env []).2) := by
      refine Prod.ext ?_ rfl
      rw [he, hW.eval htest hvs, hr']
      rfl
    obtain ⟨r'', hr'', hholds⟩ := hcomp.eval hW (fun y hy a ha => operand_value hscoped hG hfr.toDefined
      hfr.globals ha (hscope hy)) heval
    obtain rfl := Val.bool_inj hr''
    obtain ⟨res, hres, h⟩ := Option.bind_eq_some_iff.mp h
    obtain ⟨l, hdom, ⟨rfl, hknown⟩ | ⟨rfl, hknown⟩⟩ := determine_sound hs hres (by rintro rfl; cases h)
    · obtain rfl : true = r := Option.some.inj (Option.some.inj h)
      cases r' with
      | true => rfl
      | false => exact absurd hholds ((hfr.known hknown hdom).not_negate hW.symm)
    · obtain rfl : false = r := Option.some.inj (Option.some.inj h)
      cases r' with
      | false => rfl
      | true => exact absurd (hfr.known hknown hdom) (Fact.Holds.not_negate hW.symm hholds)
  · split at h
    · next prim targs mode args he =>
      obtain ⟨vs, hvs⟩ := hall he
      obtain ⟨htest, hr⟩ := checkPrimApp_sound hfr hs hscoped hG
        (fun y hy => hscope (by rw [he]; exact hy))
        (fun size signed hprim => hsize size signed targs mode args (by
          obtain rfl | rfl := hprim
          exacts [.inl he, .inr he])) h
      exact ⟨prim, targs, mode, args, vs, he, htest, hvs, fun r' hr' => hr vs r' hvs hr'⟩
    · cases h

end Outcomes

/-! ## The rewritten functions -/

section Program

variable {gs : List Statement} {p : Program} {f : Function} {trueVar falseVar : Var} {v : VarInfos}

/-- What the pass makes of a function, once what it has found out is true. -/
def Simplified (gs : List Statement) (p : Program) (trueVar falseVar : Var) (f f' : Function) : Prop :=
  ∃ s n blocks, s.Sound gs p f ∧ f.blocks.mapM (simplifyBlock trueVar falseVar s n) = some blocks ∧
    f' = { f with blocks }

theorem simplifyStatement_spec {s : Info} {n : ℕ} {l : Label} {st st' : Statement}
    (h : simplifyStatement trueVar falseVar s n l st = some st') :
    st' = st ∨ ∃ x r, st.var = some x ∧ outcome s n l x st.exp = some (some r) ∧
      st' = { st with exp := .var (if r then trueVar else falseVar) } := by
  unfold simplifyStatement at h
  split at h
  · exact .inl (Option.some.inj h).symm
  · next x hx =>
    obtain ⟨o, ho, h⟩ := Option.bind_eq_some_iff.mp h
    cases o with
    | none => exact .inl (Option.some.inj h).symm
    | some r => exact .inr ⟨x, r, hx, ho, (Option.some.inj h).symm⟩

/-- The block that a label names in the rewritten function. -/
theorem block?_simplified {s : Info} {n : ℕ} {blocks : List Block}
    (h : f.blocks.mapM (simplifyBlock trueVar falseVar s n) = some blocks) (l : Label) :
    Function.block? { f with blocks } l = (f.block? l).bind (simplifyBlock trueVar falseVar s n) :=
  Fold.find?_mapM (fun b b' hb => by
    obtain ⟨sts, -, hb⟩ := Option.bind_eq_some_iff.mp hb
    obtain rfl := Option.some.inj hb
    rfl) h

theorem Simplified.name {f' : Function} (h : Simplified gs p trueVar falseVar f f') : f'.name = f.name := by
  obtain ⟨s, n, blocks, -, -, rfl⟩ := h
  rfl

theorem Simplified.alike {f' : Function} (h : Simplified gs p trueVar falseVar f f') : f.Alike f' := by
  obtain ⟨s, n, blocks, -, hblocks, rfl⟩ := h
  refine ⟨rfl, rfl, fun l => ?_⟩
  rw [block?_simplified hblocks]
  cases hb : f.block? l with
  | none => exact .none
  | some b =>
    obtain ⟨b', hb'⟩ := Fold.exists_of_mapM hblocks (block?_mem hb)
    rw [Option.bind_some, hb'.2]
    obtain ⟨sts, hsts, hb'⟩ := Option.bind_eq_some_iff.mp hb'.2
    obtain rfl := Option.some.inj hb'
    refine .some ⟨rfl, rfl, (Fold.mapM_eq_some.mp hsts).imp fun st st' hst => ?_⟩
    obtain rfl | ⟨x, r, -, -, rfl⟩ := simplifyStatement_spec hst <;> rfl

theorem simplifyFunctions_spec : ∀ {fs : List Function} {v : VarInfos} {fs' : List Function},
    fs ⊆ p.functions → v.Sound gs p → simplifyFunctions trueVar falseVar fs v = some fs' →
    List.Forall₂ (Simplified gs p trueVar falseVar) fs fs'
  | [], _, _, _, _, h => Option.some.inj h ▸ .nil
  | f :: fs, v, fs', hsub, hv, h => by
    obtain ⟨⟨f', v'⟩, hf, h⟩ := Option.bind_eq_some_iff.mp h
    obtain ⟨fs'', hfs, h⟩ := Option.bind_eq_some_iff.mp h
    obtain rfl := Option.some.inj h
    obtain ⟨s, hs, hf⟩ := Option.bind_eq_some_iff.mp hf
    obtain ⟨blocks, hblocks, hf⟩ := Option.bind_eq_some_iff.mp hf
    obtain ⟨rfl, rfl⟩ := Prod.mk.inj (Option.some.inj hf)
    have hsound := analyze_sound (hsub (List.mem_cons_self ..)) hv hs
    exact .cons ⟨s, _, blocks, hsound, hblocks, rfl⟩
      (simplifyFunctions_spec (List.subset_of_cons_subset hsub) hsound.varInfo hfs)

theorem addGlobals_sound : ∀ {sts : List Statement} {v v' : VarInfos}, sts ⊆ gs → v.Sound gs p →
    sts.foldlM VarInfos.addGlobal v = some v' → v'.Sound gs p
  | [], _, _, _, hv, h => Option.some.inj h ▸ hv
  | s :: sts, v, v', hsub, hv, h => by
    rw [List.foldlM_cons] at h
    obtain ⟨v₁, hv₁, h⟩ := Option.bind_eq_some_iff.mp h
    exact addGlobals_sound (List.subset_of_cons_subset hsub)
      (hv.addGlobal (hsub (List.mem_cons_self ..)) hv₁) h

end Program

/-- Additions and subtractions that are checked are of words of two bits at least. -/
def ChecksWide (p : Program) : Prop :=
  ∀ f ∈ p.functions, ∀ b ∈ f.blocks, ∀ s ∈ b.statements, ∀ size signed targs mode args,
    s.exp = .primApp (.wordAddCheckP size signed) targs mode args ∨
      s.exp = .primApp (.wordSubCheckP size signed) targs mode args → 2 ≤ size

/-- A test that has operands of other sizes than its own, and does not come back. -/
def IllSized (same : Val → Val → Bool) (ρ : Env) (e : Exp) : Prop :=
  ∃ prim targs mode args vs, e = .primApp prim targs mode args ∧ isTest prim = true ∧
    ρ.all args = some vs ∧ test same prim vs = none

section Guarded

/-- `v0 = 0w9; v1 = 0w1`. -/
def guardGlobals : List Statement :=
  [⟨some ⟨0⟩, .word 32, .const (.word 32 9)⟩, ⟨some ⟨1⟩, .word 32, .const (.word 32 1)⟩]

/-- `main () { L3 () { v7 = read (); f (v7) } }`, `f (v2) { L0 () { v3 = lt (v2, v0);
case v3 of true => L1 | false => L2 }  L1 () { v4 = addCheckP (v2, v1); v5 = lt (v2, v0); return (v4) }
L2 () { v6 = lt (v2, v0); return (v6) } }`. -/
def guarded : Program where
  functions := [
    { args := []
      blocks := [
        { args := []
          label := ⟨3⟩
          statements := [⟨some ⟨7⟩, .word 32, .primApp (.named .dependsOnState 0) [] none []⟩]
          transfer := .call [⟨7⟩] ⟨1⟩ .tail }]
      mayInline := true
      name := ⟨0⟩
      raises := none
      returns := some [.datatype 0]
      start := ⟨3⟩ },
    { args := [(⟨2⟩, .word 32)]
      blocks := [
        { args := []
          label := ⟨0⟩
          statements := [⟨some ⟨3⟩, .datatype 0, .primApp (.wordLt 32 true) [] none [⟨2⟩, ⟨0⟩]⟩]
          transfer := .case ⟨3⟩ (.con [(Con.truee, ⟨1⟩), (Con.falsee, ⟨2⟩)]) none },
        { args := []
          label := ⟨1⟩
          statements := [
            ⟨some ⟨4⟩, .datatype 0, .primApp (.wordAddCheckP 32 true) [] none [⟨2⟩, ⟨1⟩]⟩,
            ⟨some ⟨5⟩, .datatype 0, .primApp (.wordLt 32 true) [] none [⟨2⟩, ⟨0⟩]⟩]
          transfer := .ret [⟨4⟩] },
        { args := []
          label := ⟨2⟩
          statements := [⟨some ⟨6⟩, .datatype 0, .primApp (.wordLt 32 true) [] none [⟨2⟩, ⟨0⟩]⟩]
          transfer := .ret [⟨6⟩] }]
      mayInline := true
      name := ⟨1⟩
      raises := none
      returns := some [.datatype 0]
      start := ⟨0⟩ }]
  main := ⟨0⟩

/-- Constants are compared by value, everything else is told apart. -/
def sameConst : Val → Val → Bool
  | .const c, .const c' => c = c'
  | _, _ => false

/-- A world that reads the word 7, and answers tests. -/
def guarding : World where
  call _ _ _ := none
  prim _ prim _ _ vs :=
    match prim with
    | .named _ _ => some (.word 32 7#32)
    | prim => (test sameConst prim vs).map Val.bool
  runtime _ _ _ := none

theorem tests_guarding : Tests guarding sameConst where
  prim {t prim targs mode vs} hprim := by cases prim <;> first | rfl | cases hprim
  symm v w := by
    cases v <;> cases w <;> first | rfl | exact decide_eq_decide.mpr eq_comm
  word x y := by
    refine decide_eq_decide.mpr ⟨fun h => Val.word_inj (congrArg Val.const h), ?_⟩
    rintro rfl
    rfl

/-- The globals. -/
def guardEnv : Env := (Env.set (fun _ => none) ⟨0⟩ (.const (.word 32 9))).set ⟨1⟩ (.const (.word 32 1))

theorem globalsHold_guardEnv : GlobalsHold guardGlobals guardEnv := by
  intro s hs x hx
  simp only [guardGlobals, List.mem_cons, List.not_mem_nil, or_false] at hs
  obtain rfl | rfl := hs <;> obtain rfl := Option.some.inj hx
  · exact ⟨_, rfl, fun c hc => by cases hc; rfl⟩
  · exact ⟨_, rfl, fun c hc => by cases hc; rfl⟩

/-- What the statements of `guarded` become. -/
def guardedResult : Option ((List Statement × Program) × Supply) :=
  transform (fun _ f => f) (.datatype 0) guardGlobals guarded 10

/-- The check cannot overflow, and the comparisons are known. -/
example : guardedResult.map (fun r => r.1.2.functions.flatMap fun f => f.blocks.flatMap fun b =>
    b.statements.map fun s => s.exp.vars) =
    some [[⟨2⟩, ⟨0⟩], [⟨11⟩], [⟨10⟩], [⟨11⟩], []] := by decide +kernel

theorem boolCases_guarded : BoolCases guarded := by
  intro f hf b hb test cases default htr e q _ _ arms harms
  simp only [guarded, List.mem_cons, List.not_mem_nil, or_false] at hf
  obtain rfl | rfl := hf <;> simp only [List.mem_cons, List.not_mem_nil, or_false] at hb
  · obtain rfl := hb
    cases htr
  · obtain rfl | rfl | rfl := hb <;> cases htr
    cases harms
    decide

theorem checksWide_guarded : ChecksWide guarded := by
  intro f hf b hb s hs size signed targs mode args h
  have hsize : ∀ f ∈ guarded.functions, ∀ b ∈ f.blocks, ∀ s ∈ b.statements, ∀ prim targs mode args,
      s.exp = .primApp prim targs mode args →
      prim ∈ [.named .dependsOnState 0, .wordLt 32 true, .wordAddCheckP 32 true] := by
    simp only [guarded, List.forall_mem_cons, List.not_mem_nil, false_imp_iff, implies_true, and_true]
    grind
  obtain h | h := h
  · have := hsize f hf b hb s hs _ _ _ _ h
    simp only [List.mem_cons, List.not_mem_nil, or_false, reduceCtorEq, false_or, Prim.wordAddCheckP.injEq] at this
    omega
  · have := hsize f hf b hb s hs _ _ _ _ h
    simp at this

end Guarded

end MLton.Ssa.RedundantTests
