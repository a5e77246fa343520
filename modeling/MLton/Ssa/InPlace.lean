import Mathlib.Data.List.Forall2
import MLton.Machinery.Simulation
import MLton.Ssa.Machine

/-!
# Ssa/InPlace — programs that differ in right-hand sides only

A pass that puts other right-hand sides where the old ones were leaves the blocks, what they bind and
where they go.  If the new ones have the values of the old ones, the two programs step together
(`Same.step`), up to the events that the world does not care for.
-/

namespace MLton.Ssa

open MLton.Effects MLton.Simulation

/-! ## What the world does not see -/

/-- The events that are not hidden. -/
def Trace.seen (hidden : Event → Bool) (t : Trace) : Trace := t.filter (!hidden ·)

/-- The answers of the world do not depend on the hidden events. -/
structure World.Blind (W : World) (hidden : Event → Bool) : Prop where
  prim : ∀ {t t'}, Trace.seen hidden t = Trace.seen hidden t' → W.prim t = W.prim t'
  runtime : ∀ {t t'}, Trace.seen hidden t = Trace.seen hidden t' → W.runtime t = W.runtime t'

section Seen

variable {hidden : Event → Bool} {t t' : Trace} {ev : Event}

theorem Trace.seen_append (h : Trace.seen hidden t = Trace.seen hidden t') (ts : Trace) :
    Trace.seen hidden (t ++ ts) = Trace.seen hidden (t' ++ ts) := by
  simp only [Trace.seen, List.filter_append] at h ⊢
  rw [h]

theorem Trace.seen_hidden (h : hidden ev = true) : Trace.seen hidden (t ++ [ev]) = Trace.seen hidden t := by
  simp [Trace.seen, h]

end Seen

/-- Results that are the same, with the same events seen. -/
def SameResult {α : Type} (hidden : Event → Bool) (r r' : Result Val α × Trace) : Prop :=
  r.1 = r'.1 ∧ Trace.seen hidden r.2 = Trace.seen hidden r'.2

/-- A right-hand side does the same after traces that look the same. -/
theorem Exp.eval_same {W : World} {hidden : Event → Bool} (hW : W.Blind hidden) {ρ : Env} (e : Exp)
    {t t' : Trace} (h : Trace.seen hidden t = Trace.seen hidden t') :
    SameResult hidden (e.eval W ρ t) (e.eval W ρ t') := by
  cases e with
  | conApp con args mode => cases hvs : ρ.all args <;> simp [Exp.eval, hvs, SameResult, h]
  | const c => exact ⟨rfl, h⟩
  | primApp prim targs mode args =>
    cases hvs : ρ.all args with
    | none => simp [Exp.eval, hvs, SameResult, h]
    | some vs =>
      simp only [Exp.eval, hvs, World.primApp, hW.prim h]
      exact ⟨rfl, Trace.seen_append h _⟩
  | profile e => exact ⟨rfl, Trace.seen_append h _⟩
  | select x offset => cases hv : (ρ x).bind (Val.component offset) <;> simp [Exp.eval, hv, SameResult, h]
  | tuple exps mode => cases hvs : ρ.all exps <;> simp [Exp.eval, hvs, SameResult, h]
  | var x => cases hv : ρ x <;> simp [Exp.eval, hv, SameResult, h]

/-! ## Programs of one shape -/

/-- Blocks with other right-hand sides. -/
structure Block.Alike (b b' : Block) : Prop where
  args : b'.args = b.args
  transfer : b'.transfer = b.transfer
  statements : List.Forall₂ (fun s s' => s'.var = s.var) b.statements b'.statements

/-- Functions with other right-hand sides. -/
structure Function.Alike (f f' : Function) : Prop where
  args : f'.args = f.args
  start : f'.start = f.start
  blocks : ∀ l, Option.Rel Block.Alike (f.block? l) (f'.block? l)

/-- Programs whose functions are related by `R`. -/
structure Program.Alike (R : Function → Function → Prop) (p p' : Program) : Prop where
  main : p'.main = p.main
  functions : ∀ func, Option.Rel R (p.function? func) (p'.function? func)
  alike : ∀ {f f'}, R f f' → f.Alike f'

/-! ## States that correspond -/

section Same

variable (R : Function → Function → Prop) (hidden : Event → Bool)

/-- Activations at one point, with one environment. -/
structure Frame.Same (fr fr' : Frame) : Prop where
  func : R fr.func fr'.func
  label : fr'.label = fr.label
  index : fr'.index = fr.index
  env : fr'.env = fr.env

/-- Activations that wait for the same. -/
structure Waiting.Same (w w' : Waiting) : Prop where
  frame : w.frame.Same R w'.frame
  ret : w'.ret = w.ret

/-- States that differ in what is hidden. -/
inductive State.Same : State → State → Prop
  | running {fr fr' stack stack' t t'} : fr.Same R fr' → List.Forall₂ (Waiting.Same R) stack stack' →
      Trace.seen hidden t = Trace.seen hidden t' → State.Same (.running fr stack t) (.running fr' stack' t')
  | ended {r t t'} : Trace.seen hidden t = Trace.seen hidden t' → State.Same (.ended r t) (.ended r t')

end Same

section Steps

variable {R : Function → Function → Prop} {hidden : Event → Bool} {W : World} {G : Env} {p p' : Program}
  {fr fr' : Frame} {stack stack' : List Waiting} {t t' : Trace}

variable (halike : p.Alike R p')

include halike

theorem Frame.Same.enter (h : fr.Same R fr') (l : Label) (vs : List Val) :
    Option.Rel (Frame.Same R) (fr.enter l vs) (fr'.enter l vs) := by
  refine rel_bind ((halike.alike h.func).blocks l) fun {b b'} hb => ?_
  rw [hb.args]
  split
  · exact .some ⟨h.func, rfl, rfl, by simp only [h.env]⟩
  · exact .none

theorem Function.Alike.activate {f f' : Function} (h : R f f') (vs : List Val) :
    Option.Rel (Frame.Same R) (f.activate G vs) (f'.activate G vs) := by
  have ha := halike.alike h
  unfold Function.activate
  rw [ha.args]
  split
  · exact .some ⟨h, ha.start, rfl, rfl⟩
  · exact .none

theorem State.Same.enter (h : fr.Same R fr') (hstack : List.Forall₂ (Waiting.Same R) stack stack')
    (ht : Trace.seen hidden t = Trace.seen hidden t') (l : Label) (vs : List Val) :
    Option.Rel (State.Same R hidden) ((fr.enter l vs).map (State.running · stack t))
      ((fr'.enter l vs).map (State.running · stack' t')) :=
  rel_map (h.enter halike l vs) fun h => .running h hstack ht

theorem State.Same.comeBack (ht : Trace.seen hidden t = Trace.seen hidden t') (vs : List Val)
    (hstack : List.Forall₂ (Waiting.Same R) stack stack') :
    Option.Rel (State.Same R hidden) (State.comeBack vs t stack) (State.comeBack vs t' stack') := by
  cases hstack with
  | nil => exact .some (.ended ht)
  | @cons w w' _ _ hw hstack =>
    obtain ⟨fr, ret⟩ := w
    obtain ⟨fr', ret'⟩ := w'
    obtain ⟨hfr, hret⟩ := hw
    obtain rfl : ret' = ret := hret
    cases ret' with
    | nonTail cont handler => exact State.Same.enter halike hfr hstack ht cont vs
    | dead | tail => exact .none

theorem State.Same.throw (ht : Trace.seen hidden t = Trace.seen hidden t') (vs : List Val)
    (hstack : List.Forall₂ (Waiting.Same R) stack stack') :
    Option.Rel (State.Same R hidden) (State.throw vs t stack) (State.throw vs t' stack') := by
  induction hstack with
  | nil => exact .some (.ended ht)
  | @cons w w' _ _ hw hstack ih =>
    obtain ⟨fr, ret⟩ := w
    obtain ⟨fr', ret'⟩ := w'
    obtain ⟨hfr, hret⟩ := hw
    obtain rfl : ret' = ret := hret
    cases ret' with
    | nonTail cont handler =>
      cases handler with
      | caller => exact ih
      | dead => exact .none
      | handle l => exact State.Same.enter halike hfr hstack ht l vs
    | dead | tail => exact .none

/-- **Transfers do the same.** -/
theorem Transfer.step_same (hW : W.Blind hidden) (h : fr.Same R fr')
    (hstack : List.Forall₂ (Waiting.Same R) stack stack')
    (ht : Trace.seen hidden t = Trace.seen hidden t') (tr : Transfer) :
    Option.Rel (State.Same R hidden) (tr.step W p G fr stack t) (tr.step W p' G fr' stack' t') := by
  have hself : ∀ {α : Type} (o : Option α), Option.Rel Eq o o := fun o => by
    cases o with
    | none => exact .none
    | some a => exact .some rfl
  cases tr with
  | bug => exact .some (.ended ht)
  | call args func k =>
    simp only [Transfer.step, h.env, Option.bind_eq_bind]
    refine rel_bind (hself _) fun {vs _} hvs => ?_
    subst hvs
    refine rel_bind (halike.functions func) fun {f f'} hf => ?_
    refine rel_bind (Function.Alike.activate halike hf vs) fun hcallee => ?_
    cases k with
    | tail => exact .some (.running hcallee hstack ht)
    | dead | nonTail => exact .some (.running hcallee (.cons ⟨h, rfl⟩ hstack) ht)
  | case test cases default =>
    simp only [Transfer.step, h.env, Option.bind_eq_bind]
    refine rel_bind (hself _) fun {v _} hv => ?_
    subst hv
    refine rel_bind (hself _) fun {lvs _} hlvs => ?_
    subst hlvs
    exact rel_bind (h.enter halike lvs.1 lvs.2) fun h => .some (.running h hstack ht)
  | goto dst args =>
    simp only [Transfer.step, h.env, Option.bind_eq_bind]
    refine rel_bind (hself _) fun {vs _} hvs => ?_
    subst hvs
    exact rel_bind (h.enter halike dst vs) fun h => .some (.running h hstack ht)
  | raise xs =>
    simp only [Transfer.step, h.env, Option.bind_eq_bind]
    refine rel_bind (hself _) fun {vs _} hvs => ?_
    subst hvs
    exact State.Same.throw halike ht vs hstack
  | ret xs =>
    simp only [Transfer.step, h.env, Option.bind_eq_bind]
    refine rel_bind (hself _) fun {vs _} hvs => ?_
    subst hvs
    exact State.Same.comeBack halike ht vs hstack
  | runtime prim args l =>
    simp only [Transfer.step, h.env, Option.bind_eq_bind]
    refine rel_bind (hself _) fun {vs _} hvs => ?_
    subst hvs
    simp only [World.runtimeCall, hW.runtime ht]
    have ht' := Trace.seen_append ht [.runtime prim vs]
    cases W.runtime t' prim vs with
    | none => exact .some (.ended ht')
    | some rs => exact rel_bind (h.enter halike l rs) fun h => .some (.running h hstack ht')

end Steps

/-! ## Runs -/

section Runs

variable {R : Function → Function → Prop} {hidden : Event → Bool} {W : World} {G : Env} {p p' : Program}
  {fr : Frame} {t : Trace}

/-- The right-hand side at a point, and the one that replaces it. -/
def Replaced (R : Function → Function → Prop) (fr : Frame) (e e' : Exp) : Prop :=
  ∃ f' b b' s s', R fr.func f' ∧ fr.func.block? fr.label = some b ∧ f'.block? fr.label = some b' ∧
    b.statements[fr.index]? = some s ∧ b'.statements[fr.index]? = some s' ∧ s.exp = e ∧ s'.exp = e'

/-- The right-hand side at hand has the value of the one that replaces it. -/
def Frame.Preserved (W : World) (R : Function → Function → Prop) (hidden : Event → Bool) (fr : Frame)
    (t : Trace) : Prop :=
  ∀ {e e'}, Replaced R fr e e' → SameResult hidden (e.eval W fr.env t) (e'.eval W fr.env t)

/-- The right-hand side at hand never comes back. -/
def Frame.Lost (W : World) (fr : Frame) (t : Trace) : Prop :=
  ∃ b s, fr.func.block? fr.label = some b ∧ b.statements[fr.index]? = some s ∧
    (s.exp.eval W fr.env t).1 = .gone

theorem Frame.Lost.step {stack : List Waiting} (h : fr.Lost W t) :
    ∃ t', State.step W p G (.running fr stack t) = some (.ended .gone t') := by
  obtain ⟨b, s, hb, hs, hgone⟩ := h
  refine ⟨(s.exp.eval W fr.env t).2, ?_⟩
  simp only [State.step, hb, Option.bind_eq_bind, Option.bind_some, hs]
  generalize s.exp.eval W fr.env t = r at hgone ⊢
  obtain ⟨r, t'⟩ := r
  obtain rfl : r = .gone := hgone
  rfl

variable (halike : p.Alike R p') (hW : W.Blind hidden)

include halike hW

/-- **One step of both.** -/
theorem State.Same.step {s s' : State} (h : State.Same R hidden s s')
    (hpres : ∀ {fr stack t}, s = .running fr stack t → fr.Preserved W R hidden t) :
    Option.Rel (State.Same R hidden) (s.step W p G) (s'.step W p' G) := by
  cases h with
  | ended => exact .none
  | @running fr fr' stack stack' t t' hfr hstack ht =>
    have hblocks := (halike.alike hfr.func).blocks fr.label
    simp only [State.step, Option.bind_eq_bind, hfr.label, hfr.index]
    cases hb : fr.func.block? fr.label with
    | none =>
      rw [hb] at hblocks
      cases hb' : fr'.func.block? fr.label with
      | none => exact .none
      | some b' =>
        rw [hb'] at hblocks
        cases hblocks
    | some b =>
      obtain ⟨b', hb', hbs⟩ : ∃ b', fr'.func.block? fr.label = some b' ∧ b.Alike b' := by
        rw [hb] at hblocks
        generalize fr'.func.block? fr.label = o at hblocks
        cases hblocks with
        | some h => exact ⟨_, rfl, h⟩
      simp only [hb', Option.bind_some]
      cases hs : b.statements[fr.index]? with
      | none =>
        have hs' : b'.statements[fr.index]? = none := by
          rw [List.getElem?_eq_none_iff] at hs ⊢
          exact hbs.statements.length_eq ▸ hs
        simp only [hs', hbs.transfer]
        exact Transfer.step_same halike hW hfr hstack ht b.transfer
      | some st =>
        obtain ⟨st', hs', hvar⟩ : ∃ st', b'.statements[fr.index]? = some st' ∧ st'.var = st.var := by
          obtain ⟨hlt, rfl⟩ := List.getElem?_eq_some_iff.mp hs
          have hlt' := hbs.statements.length_eq ▸ hlt
          exact ⟨_, List.getElem?_eq_getElem hlt', hbs.statements.get hlt hlt'⟩
        have hres := hpres rfl ⟨fr'.func, b, b', st, st', hfr.func, hb, hb', hs, hs', rfl, rfl⟩
        obtain ⟨hr, ht₁⟩ := st'.exp.eval_same hW (ρ := fr.env) ht
        obtain ⟨hr', ht₂⟩ := hres
        simp only [hs', hfr.env]
        generalize st.exp.eval W fr.env t = r₀ at hr' ht₂ ⊢
        generalize st'.exp.eval W fr.env t = r₁ at hr hr' ht₁ ht₂
        generalize st'.exp.eval W fr.env t' = r₂ at hr ht₁ ⊢
        obtain ⟨r, t₀⟩ := r₀
        obtain ⟨r₁, t₁⟩ := r₁
        obtain ⟨r₂, t₂⟩ := r₂
        obtain rfl : r = r₁ := hr'
        obtain rfl : r = r₂ := hr
        have htt : Trace.seen hidden t₀ = Trace.seen hidden t₂ := Eq.trans ht₂ ht₁
        cases r with
        | value v =>
          refine .some (.running ⟨hfr.func, hfr.label, congrArg (· + 1) hfr.index, ?_⟩ hstack htt)
          simp only [Frame.advance, hvar, hfr.env]
        | gone => exact .some (.ended htt)
        | _ => exact .none

omit hW in
theorem Program.Alike.init :
    Option.Rel (State.Same R hidden) (p.init G) (p'.init G) := by
  unfold Program.init
  rw [halike.main]
  exact rel_bind (halike.functions p.main) fun h => rel_map (Function.Alike.activate halike h []) fun h =>
    .running h .nil rfl

/-- **What the program reaches, the rewritten one reaches**, unless a right-hand side that was replaced
never comes back; `L` is what is known if one does not. -/
theorem Program.Alike.reaches {L : Prop}
    (hpres : ∀ {fr stack t}, p.Reaches W G (.running fr stack t) →
      fr.Preserved W R hidden t ∨ fr.Lost W t ∧ L) {s : State} (h : p.Reaches W G s) :
    (∃ t, s = .ended .gone t) ∧ L ∨ ∃ s', p'.Reaches W G s' ∧ State.Same R hidden s s' := by
  induction h with
  | @init s hinit =>
    have : Option.Rel (State.Same R hidden) (p.init G) (p'.init G) := halike.init
    rw [hinit] at this
    generalize ho : p'.init G = o at this
    cases this with
    | some h => exact .inr ⟨_, .init ho, h⟩
  | @step s s₁ hs hstep ih =>
    obtain ⟨⟨t, rfl⟩, -⟩ | ⟨s', hs', hsame⟩ := ih
    · cases hstep
    · by_cases hlost : ∃ fr stack t, s = .running fr stack t ∧ fr.Lost W t ∧ L
      · obtain ⟨fr, stack, t, rfl, hlost, hL⟩ := hlost
        obtain ⟨t', hgone⟩ : ∃ t', State.step W p G (.running fr stack t) = some (.ended .gone t') := hlost.step
        exact .inl ⟨⟨t', Option.some.inj (hstep.symm.trans hgone)⟩, hL⟩
      · have hrel := hsame.step halike hW (G := G) fun {fr stack t} heq =>
          (hpres (heq ▸ hs)).resolve_right fun hl => hlost ⟨fr, stack, t, heq, hl⟩
        rw [hstep] at hrel
        generalize ho : s'.step W p' G = o at hrel
        cases hrel with
        | some h => exact .inr ⟨_, .step hs' ho, h⟩

/-- **What the rewritten program reaches, the program reaches.** -/
theorem Program.Alike.reaches_of
    (hpres : ∀ {fr stack t}, p.Reaches W G (.running fr stack t) → fr.Preserved W R hidden t) {s' : State}
    (h : p'.Reaches W G s') : ∃ s, p.Reaches W G s ∧ State.Same R hidden s s' := by
  induction h with
  | @init s' hinit =>
    have : Option.Rel (State.Same R hidden) (p.init G) (p'.init G) := halike.init
    rw [hinit] at this
    generalize ho : p.init G = o at this
    cases this with
    | some h => exact ⟨_, .init ho, h⟩
  | @step s' s₁ _ hstep ih =>
    obtain ⟨s, hs, hsame⟩ := ih
    have hrel := hsame.step halike hW (G := G) fun heq => hpres (heq ▸ hs)
    rw [hstep] at hrel
    generalize ho : s.step W p G = o at hrel
    cases hrel with
    | some h => exact ⟨_, .step hs ho, h⟩

end Runs

end MLton.Ssa
