import MLton.Ssa.DominatorTree
import MLton.Ssa.Machine

/-!
# Ssa/Defined — definitions stay true of what is in scope

A variable in scope is bound, and the right-hand side that defines it still evaluates to the value it
has (`defined_kept`): what the right-hand side is computed from is not bound again before the variable
goes out of scope.
-/

namespace MLton.Ssa

open MLton.Dominance

/-! ## Right-hand sides and environments -/

theorem Env.all_congr {ρ σ : Env} {xs : List Var} (h : ∀ x ∈ xs, ρ x = σ x) : ρ.all xs = σ.all xs := by
  induction xs with
  | nil => rfl
  | cons x xs ih =>
    have hxs := ih fun y hy => h y (List.mem_cons_of_mem _ hy)
    simp only [Env.all, List.mapM_cons] at hxs ⊢
    rw [h x (List.mem_cons_self ..), hxs]

/-- A right-hand side looks at its variables only. -/
theorem Exp.eval_congr {W : World} {ρ σ : Env} {e : Exp} (h : ∀ x ∈ e.vars, ρ x = σ x) (t : Trace) :
    e.eval W ρ t = e.eval W σ t := by
  cases e with
  | conApp con args mode => simp only [Exp.eval, Env.all_congr (show ∀ x ∈ args, _ from h)]
  | const | profile => rfl
  | primApp prim targs mode args => simp only [Exp.eval, Env.all_congr (show ∀ x ∈ args, _ from h)]
  | select x offset => simp only [Exp.eval, h x (List.mem_singleton_self x)]
  | tuple exps mode => simp only [Exp.eval, Env.all_congr (show ∀ x ∈ exps, _ from h)]
  | var x => simp only [Exp.eval, h x (List.mem_singleton_self x)]

namespace Function

variable {globals : List Var} {f : Function} {x y z : Var} {e : Exp} {l : Label} {i : ℕ} {b : Block}
  {s : Statement} {pt q : Point}

/-! ## Definitions -/

/-- The statement at the point binds the variable to the right-hand side. -/
def DefinedAs (f : Function) (x : Var) (e : Exp) (pt : Point) : Prop :=
  ∃ b s, f.block? pt.1 = some b ∧ b.statements[pt.2]? = some s ∧ s.var = some x ∧ s.exp = e

theorem DefinedAs.of_statement (hb : f.block? l = some b) (hs : b.statements[i]? = some s)
    (hx : s.var = some x) : f.DefinedAs x s.exp (l, i) :=
  ⟨b, s, hb, hs, hx, rfl⟩

theorem DefinedAs.binds (h : f.DefinedAs x e (l, i)) : f.Binds x (l, i + 1) := by
  obtain ⟨b, s, hb, hs, hx, -⟩ := h
  exact .statement hb hs hx

theorem DefinedAs.moves (h : f.DefinedAs x e (l, i)) : f.Moves (l, i) (l, i + 1) := by
  obtain ⟨b, s, hb, hs, -, -⟩ := h
  exact .statement hb (List.getElem?_eq_some_iff.mp hs).1

theorem Scoped.definedAs_unique (h : f.Scoped globals) {e' : Exp} (hx : f.DefinedAs x e pt)
    (hx' : f.DefinedAs x e' q) : pt = q ∧ e = e' := by
  obtain ⟨l, i⟩ := pt
  obtain ⟨l', i'⟩ := q
  obtain ⟨rfl, hi⟩ := Prod.mk.inj (h.unique (.inl hx.binds) (.inl hx'.binds))
  obtain rfl := Nat.succ.inj hi
  obtain ⟨b, s, hb, hs, -, rfl⟩ := hx
  obtain ⟨b', s', hb', hs', -, rfl⟩ := hx'
  obtain rfl := Option.some.inj (hb.symm.trans hb')
  obtain rfl := Option.some.inj (hs.symm.trans hs')
  exact ⟨rfl, rfl⟩

/-- What a right-hand side is computed from is in scope in front of it. -/
theorem Scoped.inScope_of_definedAs (h : f.Scoped globals) (hx : f.DefinedAs x e pt) (hy : y ∈ e.vars) :
    f.InScope globals y pt := by
  obtain ⟨b, s, hb, hs, -, rfl⟩ := hx
  exact h.statement hb hs hy

/-- The only move to the point behind a definition is the definition. -/
theorem eq_of_moves (hmove : f.Moves pt (l, i + 1)) : pt = (l, i) := by
  cases hmove
  rfl

/-- A variable is not in scope in front of the statement that binds it. -/
theorem Scoped.not_inScope_before (h : f.Scoped globals) (hreach : f.Reachable (l, i + 1))
    (hx : f.Binds x (l, i + 1)) : ¬ f.InScope globals x (l, i) := by
  have honly : ∀ {p}, f.Defines globals x p → p = (l, i + 1) := fun hp => h.unique hp (.inl hx)
  intro hin
  obtain hav | ⟨w, rfl, hfirst⟩ := avoids_or_exists_first (· = (l, i + 1)) hreach
  · exact hav.notMem rfl
  · obtain ⟨u, hu, hmove⟩ := hfirst.resolve_left fun heq => h.not_binds_entry (heq ▸ hx)
    obtain rfl := eq_of_moves hmove
    exact hin (hu.of_forall fun p hD hp => hp.notMem (honly hD))

/-- **Scopes are transitive**: what is in scope where a variable is defined is in scope where the variable
is. -/
theorem Scoped.inScope_trans (h : f.Scoped globals) (hx : f.DefinedAs x e q)
    (hin : f.InScope globals x pt) (hy : f.InScope globals y q) : f.InScope globals y pt := by
  obtain ⟨l, i⟩ := q
  intro hav
  refine hin (hav.of_forall fun p hD hp => ?_)
  obtain rfl := h.unique hD (.inl hx.binds)
  cases hp with
  | step hu hmove =>
    obtain rfl := eq_of_moves hmove
    exact hy hu

/-- A move to where a variable is in scope binds nothing that its definition is computed from. -/
theorem Scoped.not_binds_of_uses (h : f.Scoped globals) (hreach : f.Reachable pt)
    (hx : f.DefinedAs x e q) (hin : f.InScope globals x pt) (hne : ¬ f.Binds x pt) (hy : y ∈ e.vars) :
    ¬ f.Binds y pt := by
  obtain ⟨l, i⟩ := q
  intro hbind
  refine h.not_inScope_of_uses hreach hbind hx.binds (fun heq => hne (heq ▸ hx.binds)) ?_ hin
  intro p hmove
  exact eq_of_moves hmove ▸ h.inScope_of_definedAs hx hy

/-- What is in scope at a point that control gets to is defined. -/
theorem InScope.exists_defines (hpt : f.Reachable pt) (hx : f.InScope globals x pt) :
    ∃ q, f.Defines globals x q := by
  by_contra hno
  exact hx (avoids_of_not_reaches (fun q hq => absurd ⟨q, hq⟩ hno) hpt)

end Function

/-- What a function has in scope is defined in no other function. -/
theorem Program.Scoped.eq_of_definedAs {globals : List Var} {p : Program} (h : p.Scoped globals)
    {f g : Function} {x : Var} {e : Exp} {pt q : Point} (hf : f ∈ p.functions) (hg : g ∈ p.functions)
    (hpt : f.Reachable pt) (hx : f.InScope globals x pt) (hdef : g.DefinedAs x e q) : g = f := by
  obtain ⟨q', hbinds | ⟨hgiven, -⟩⟩ := Function.InScope.exists_defines hpt hx
  · exact h.apart g hg f hf hdef.binds hbinds
  · exact absurd hgiven (h.args g hg f hf hdef.binds)

/-! ## Runs -/

section Runs

variable {W : World} {globals : List Var} {G : Env} {p : Program}

/-- What an activation keeps: what is in scope is bound, and to the value of its definition. -/
structure Frame.Defined (W : World) (globals : List Var) (p : Program) (fr : Frame) : Prop where
  func : fr.func ∈ p.functions
  reach : fr.func.Reachable (fr.label, fr.index)
  bound : ∀ {x}, fr.func.InScope globals x (fr.label, fr.index) → ∃ v, fr.env x = some v
  defined : ∀ {x e q}, fr.func.DefinedAs x e q → fr.func.InScope globals x (fr.label, fr.index) →
    ∃ v t t', fr.env x = some v ∧ e.eval W fr.env t = (.value v, t')

namespace Frame.Defined

/-- A transfer is at the end of its block. -/
theorem index {fr : Frame} (h : fr.Defined W globals p) {b : Block}
    (hb : fr.func.block? fr.label = some b) (hnone : b.statements[fr.index]? = none) :
    fr.index = b.statements.length :=
  Nat.le_antisymm (Function.Reachable.index_le h.reach hb) (List.getElem?_eq_none_iff.mp hnone)

variable (hscoped : p.Scoped globals)

include hscoped

/-- **One move keeps the definitions**, if it binds what it is to bind and nothing else. -/
theorem move {fr : Frame} {q : Point} {ρ : Env} (h : fr.Defined W globals p)
    (hmove : fr.func.Moves (fr.label, fr.index) q)
    (hkeep : ∀ z, ¬ fr.func.Binds z q → ρ z = fr.env z)
    (hbound : ∀ z, fr.func.Binds z q → ∃ v, ρ z = some v)
    (hdefined : ∀ z e, fr.func.DefinedAs z e (fr.label, fr.index) → q = (fr.label, fr.index + 1) →
      ∃ v t t', ρ z = some v ∧ e.eval W fr.env t = (.value v, t')) :
    Frame.Defined W globals p { fr with label := q.1, index := q.2, env := ρ } := by
  have hf := hscoped.functions _ h.func
  have hreach := h.reach.tail hmove
  have hpred : ∀ {z}, fr.func.InScope globals z q → ¬ fr.func.Binds z q →
      fr.func.InScope globals z (fr.label, fr.index) := by
    intro z hz hbind
    by_cases hdef : fr.func.Defines globals z q
    · exact (hdef.resolve_left hbind).1.inScope
    · exact hz.pred hmove hdef
  refine ⟨h.func, hreach, fun {z} hz => ?_, fun {z e pt} hdef hz => ?_⟩
  · by_cases hbind : fr.func.Binds z q
    · exact hbound z hbind
    · obtain ⟨v, hv⟩ := h.bound (hpred hz hbind)
      exact ⟨v, (hkeep z hbind).trans hv⟩
  · by_cases hbind : fr.func.Binds z q
    · -- the move is the definition itself
      obtain ⟨l, i⟩ := pt
      obtain rfl := hf.unique (.inl hbind) (.inl hdef.binds)
      obtain ⟨hl, hi⟩ := Prod.mk.inj (Function.eq_of_moves hmove)
      subst hl hi
      obtain ⟨v, t, t', hv, heval⟩ := hdefined z e hdef rfl
      refine ⟨v, t, t', hv, (Exp.eval_congr (fun y hy => hkeep y fun hbindy => ?_) t).trans heval⟩
      exact hf.not_inScope_before hreach hbindy (hf.inScope_of_definedAs hdef hy)
    · obtain ⟨v, t, t', hv, heval⟩ := h.defined hdef (hpred hz hbind)
      refine ⟨v, t, t', (hkeep z hbind).trans hv, (Exp.eval_congr (fun y hy => hkeep y ?_) t).trans heval⟩
      exact hf.not_binds_of_uses hreach hdef hz hbind hy

theorem activate (hG : ∀ x ∈ globals, ∃ v, G x = some v) {f : Function} {vs : List Val} {fr : Frame}
    (hf : f ∈ p.functions) (h : f.activate G vs = some fr) : fr.Defined W globals p := by
  obtain ⟨hlen, h⟩ := Option.ite_none_right_eq_some.mp h
  obtain rfl := Option.some.inj h
  have hgiven : ∀ {x}, f.InScope globals x f.entry → f.Given globals x := fun hx =>
    (hx.entry.resolve_left (hscoped.functions f hf).not_binds_entry).1
  refine ⟨hf, .refl, fun {x} hx => ?_, fun {x e q} hdef hx => ?_⟩
  · exact Env.sets_bound ((hgiven hx).imp_left (hG x)) (by simpa using hlen)
  · exact absurd (hgiven hx) ((hscoped.functions f hf).not_given hdef.binds)

theorem enter {fr fr' : Frame} {tr : Transfer} {l : Label} {vs : List Val} {I : Frame → Prop}
    (h : fr.Defined W globals p) (hat : fr.At tr) (hpass : tr.Passes p I fr.env l vs)
    (henter : fr.enter l vs = some fr') : fr'.Defined W globals p := by
  obtain ⟨b, hb, hnone, rfl⟩ := hat
  obtain ⟨b', hb', henter⟩ := Option.bind_eq_some_iff.mp henter
  obtain ⟨hlen, henter⟩ := Option.ite_none_right_eq_some.mp henter
  obtain rfl := Option.some.inj henter
  have hbinds : ∀ z, fr.func.Binds z (l, 0) ↔ z ∈ b'.args.map Prod.fst := by
    refine fun z => ⟨fun hz => ?_, .formal hb'⟩
    cases hz with
    | formal hb'' hz => exact Option.some.inj (hb'.symm.trans hb'') ▸ hz
  refine h.move hscoped (q := (l, 0)) (h.index hb hnone ▸ .transfer hb hpass.mem_labels)
    (fun z hz => Env.sets_of_notMem fun hmem => hz ((hbinds z).mpr hmem))
    (fun z hz => Env.sets_bound (.inr ((hbinds z).mp hz)) (by simpa using hlen)) fun z e _ heq => ?_
  cases heq

theorem advance {fr : Frame} {b : Block} {s : Statement} {t t' : Trace} {v : Val}
    (h : fr.Defined W globals p) (hb : fr.func.block? fr.label = some b)
    (hs : b.statements[fr.index]? = some s) (heval : s.exp.eval W fr.env t = (.value v, t')) :
    (fr.advance s v).Defined W globals p := by
  have hbinds : ∀ z, fr.func.Binds z (fr.label, fr.index + 1) ↔ s.var = some z := by
    refine fun z => ⟨fun hz => ?_, .statement hb hs⟩
    obtain _ | ⟨hb', hs', hz⟩ := hz
    obtain rfl := Option.some.inj (hb.symm.trans hb')
    obtain rfl := Option.some.inj (hs.symm.trans hs')
    exact hz
  have hself : ∀ {z}, s.var = some z → s.var.elim fr.env (fr.env.set · v) z = some v := fun hz => by
    simp [hz]
  refine h.move hscoped (q := (fr.label, fr.index + 1))
    (.statement hb (List.getElem?_eq_some_iff.mp hs).1) (fun z hz => ?_)
    (fun z hz => ⟨v, hself ((hbinds z).mp hz)⟩) fun z e hdef _ => ?_
  · cases hvar : s.var with
    | none => rfl
    | some x => exact Env.set_of_ne fun heq => hz ((hbinds z).mpr (heq ▸ hvar))
  · obtain ⟨b', s', hb', hs', hz, rfl⟩ := hdef
    obtain rfl := Option.some.inj (hb.symm.trans hb')
    obtain rfl := Option.some.inj (hs.symm.trans hs')
    exact ⟨v, t, t', hself hz, heval⟩

end Frame.Defined

/-- **Activations keep the definitions.** -/
theorem defined_kept (hscoped : p.Scoped globals) (hG : ∀ x ∈ globals, ∃ v, G x = some v) :
    Kept W p G (Frame.Defined W globals p) where
  activate hf h := .activate hscoped hG hf.mem h
  enter h hat hpass henter := h.enter hscoped hat hpass henter
  advance h hb hs heval := h.advance hscoped hb hs heval

/-- An activation that also has the globals as they are. -/
structure Frame.Global (W : World) (globals : List Var) (G : Env) (p : Program) (fr : Frame) : Prop
    extends Frame.Defined W globals p fr where
  globals : ∀ x ∈ globals, fr.env x = G x

namespace Frame.Global

variable (hscoped : p.Scoped globals)

include hscoped

theorem activate (hG : ∀ x ∈ globals, ∃ v, G x = some v) {f : Function} {vs : List Val} {fr : Frame}
    (hf : f ∈ p.functions) (h : f.activate G vs = some fr) : fr.Global W globals G p := by
  have hfr : fr.Defined W globals p := .activate hscoped hG hf h
  obtain ⟨hlen, h⟩ := Option.ite_none_right_eq_some.mp h
  obtain rfl := Option.some.inj h
  exact ⟨hfr, fun x hx => Env.sets_of_notMem fun hmem => hscoped.globals f hf hmem hx⟩

theorem enter {fr fr' : Frame} {tr : Transfer} {l : Label} {vs : List Val} {I : Frame → Prop}
    (h : fr.Global W globals G p) (hat : fr.At tr) (hpass : tr.Passes p I fr.env l vs)
    (henter : fr.enter l vs = some fr') : fr'.Global W globals G p := by
  have hfr' := h.toDefined.enter hscoped hat hpass henter
  obtain ⟨b, hb, henter⟩ := Option.bind_eq_some_iff.mp henter
  obtain ⟨hlen, henter⟩ := Option.ite_none_right_eq_some.mp henter
  obtain rfl := Option.some.inj henter
  refine ⟨hfr', fun x hx => ?_⟩
  rw [← h.globals x hx]
  exact Env.sets_of_notMem fun hmem =>
    (hscoped.functions _ h.func).not_given (.formal hb hmem) (.inl hx)

theorem advance {fr : Frame} {b : Block} {s : Statement} {t t' : Trace} {v : Val}
    (h : fr.Global W globals G p) (hb : fr.func.block? fr.label = some b)
    (hs : b.statements[fr.index]? = some s) (heval : s.exp.eval W fr.env t = (.value v, t')) :
    (fr.advance s v).Global W globals G p := by
  refine ⟨h.toDefined.advance hscoped hb hs heval, fun x hx => ?_⟩
  rw [← h.globals x hx]
  cases hvar : s.var with
  | none => simp [Frame.advance, hvar]
  | some z =>
    simp only [Frame.advance, hvar, Option.elim_some]
    refine Env.set_of_ne ?_
    rintro rfl
    exact (hscoped.functions _ h.func).not_given (.statement hb hs hvar) (.inl hx)

end Frame.Global

/-- **Activations keep the globals.** -/
theorem global_kept (hscoped : p.Scoped globals) (hG : ∀ x ∈ globals, ∃ v, G x = some v) :
    Kept W p G (Frame.Global W globals G p) where
  activate hf h := .activate hscoped hG hf.mem h
  enter h hat hpass henter := h.enter hscoped hat hpass henter
  advance h hb hs heval := h.advance hscoped hb hs heval

end Runs

end MLton.Ssa
