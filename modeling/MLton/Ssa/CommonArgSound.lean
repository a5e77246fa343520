import MLton.Ssa.CommonArg
import MLton.Ssa.Machine
import MLton.Ssa.Scopes
import MLton.Ssa.TypeCheck

/-!
# Ssa/CommonArgSound — a removed formal equals the variable it is replaced by

Fix a variable `y`.  A variable that the argument flow reaches around `y` is not dominated by it; along
a path of the function that does not define `y`, every variable in scope is of this kind
(`avoids_of_clear`).  So where a variable dominated by `y` is in scope, `y` is too, and a move that
binds `y` leaves no such variable in scope: nothing but the flow from `y` gives them values.
-/

namespace MLton.Ssa.CommonArg

open MLton.Dominance

/-! ## The edges of the flow graph -/

section Edges

variable {p : Program} {f : Function} {b b' : Block} {es : List Flow} {v w : Var} {l : Label}

/-- The edges of the flow graph. -/
abbrev FlowEdge (p : Program) (es : List Flow) : Option Var → Option Var → Prop :=
  Dfs.Edge (flowGraph p es).successors

/-- The variables that edges mention. -/
def mentioned (es : List Flow) : List Var := es.flatMap fun e => e.1.toList ++ e.2.toList

theorem flowEdge_of_mem {e : Flow} (he : e ∈ es) : FlowEdge p es e.1 e.2 := by
  simp only [FlowEdge, Dfs.Edge, flowGraph, List.mem_dedup, List.mem_map, List.mem_filter,
    decide_eq_true_eq]
  exact ⟨e, ⟨List.mem_append_left _ he, rfl⟩, rfl⟩

theorem flowEdge_rooted (hv : v ∈ mentioned es) (hformal : v ∉ formals p) :
    FlowEdge p es none (some v) := by
  simp only [FlowEdge, Dfs.Edge, flowGraph, List.mem_dedup, List.mem_map, List.mem_filter,
    decide_eq_true_eq]
  refine ⟨(none, some v), ⟨List.mem_append_right _ ?_, rfl⟩, rfl⟩
  exact List.mem_map.mpr ⟨v, List.mem_filter.mpr ⟨hv, by simpa using hformal⟩, rfl⟩

/-- The variables with a node. -/
def HasNode (p : Program) (es : List Flow) (v : Var) : Prop := v ∈ formals p ∨ v ∈ mentioned es

theorem mem_nodes : some v ∈ (flowGraph p es).nodes ↔ HasNode p es v := by
  simp [flowGraph, HasNode, mentioned]

theorem none_mem_nodes : none ∈ (flowGraph p es).nodes := by simp [flowGraph]

theorem mem_mentioned {e : Flow} (he : e ∈ es) (hv : e.1 = some v ∨ e.2 = some v) :
    v ∈ mentioned es := by
  refine List.mem_flatMap.mpr ⟨e, he, ?_⟩
  obtain hv | hv := hv <;> simp [hv]

theorem closed : (flowGraph p es).Closed := by
  intro u _ w hw
  cases w with
  | none => exact none_mem_nodes
  | some w =>
    refine mem_nodes.mpr (.inr ?_)
    simp only [flowGraph, List.mem_dedup, List.mem_map, List.mem_filter, decide_eq_true_eq] at hw
    obtain ⟨e, ⟨he, -⟩, hew⟩ := hw
    obtain he | he := List.mem_append.mp he
    · exact mem_mentioned he (.inr hew)
    · obtain ⟨v, hv, rfl⟩ := List.mem_map.mp he
      obtain rfl := Option.some.inj hew
      exact (List.mem_filter.mp hv).1

theorem mem_formals (hf : f ∈ p.functions) (hb : f.block? l = some b) (hv : v ∈ b.args.map Prod.fst) :
    v ∈ formals p :=
  List.mem_flatMap.mpr ⟨f, hf, List.mem_flatMap.mpr ⟨b, Function.block?_mem hb, hv⟩⟩

variable (hes : transfersFlow p = some es) (hf : f ∈ p.functions)

include hes hf

theorem transferFlow_subset (hb : b ∈ f.blocks) :
    ∃ es', transferFlow f b.transfer = some es' ∧ ∀ e ∈ es', e ∈ es := by
  obtain ⟨ess, hess, rfl⟩ := Option.map_eq_some_iff.mp hes
  obtain ⟨es₁, hes₁, hfun⟩ := Fold.exists_of_mapM hess hf
  obtain ⟨ess₁, hess₁, rfl⟩ := Option.map_eq_some_iff.mp hfun
  obtain ⟨es₂, hes₂, htr⟩ := Fold.exists_of_mapM hess₁ hb
  exact ⟨es₂, htr, fun e he => List.mem_flatten.mpr ⟨_, hes₁, List.mem_flatten.mpr ⟨es₂, hes₂, he⟩⟩⟩

/-- A goto flows its arguments to the formals. -/
theorem flowEdge_goto {args : List Var} {i : ℕ} (hb : b ∈ f.blocks) (htr : b.transfer = .goto l args)
    (hb' : f.block? l = some b') (hw : (b'.args.map Prod.fst)[i]? = some w) :
    ∃ v, args[i]? = some v ∧ v ∈ mentioned es ∧ FlowEdge p es (some v) (some w) := by
  obtain ⟨es', hes', hsub⟩ := transferFlow_subset hes hf hb
  simp only [htr, transferFlow, flowVarsLabelArgs, labelArgs, hb', Option.map_some, Option.bind_some,
    flowVarsVarTys, Option.ite_none_right_eq_some] at hes'
  obtain ⟨hlen, hes'⟩ := hes'
  obtain rfl := Option.some.inj hes'
  simp only [List.getElem?_map, Option.map_eq_some_iff] at hw
  obtain ⟨vt, hvt, rfl⟩ := hw
  obtain ⟨v, hv⟩ : ∃ v, args[i]? = some v :=
    ⟨_, List.getElem?_eq_getElem (hlen ▸ (List.getElem?_eq_some_iff.mp hvt).1)⟩
  have hmem : (some v, some vt.1) ∈ es :=
    hsub _ (List.mem_iff_getElem?.mpr ⟨i, by simp [List.getElem?_zipWith, hv, hvt]⟩)
  exact ⟨v, hv, mem_mentioned hmem (.inl rfl), flowEdge_of_mem hmem⟩

omit hes hf in
theorem mem_visitLabels {ls : List Label} {es' : List Flow} (h : visitLabels f ls = some es')
    (hl : l ∈ ls) (hb' : f.block? l = some b') (hw : w ∈ b'.args.map Prod.fst) :
    ((none, some w) : Flow) ∈ es' := by
  obtain ⟨ess, hess, rfl⟩ := Option.map_eq_some_iff.mp h
  obtain ⟨es₁, hes₁, hvisit⟩ := Fold.exists_of_mapM hess hl
  simp only [visitLabelArgs, labelArgs, hb', Option.map_some, Option.some.injEq] at hvisit
  obtain ⟨vt, hvt, rfl⟩ := List.mem_map.mp hw
  exact List.mem_flatten.mpr ⟨es₁, hes₁, hvisit ▸ List.mem_map_of_mem hvt⟩

/-- Every other transfer flows the root to the formals. -/
theorem flowEdge_visit (hb : b ∈ f.blocks) (hl : l ∈ b.transfer.labels)
    (htr : ∀ args, b.transfer ≠ .goto l args) (hb' : f.block? l = some b')
    (hw : w ∈ b'.args.map Prod.fst) : FlowEdge p es none (some w) := by
  obtain ⟨es', hes', hsub⟩ := transferFlow_subset hes hf hb
  have key : ∀ {ls}, visitLabels f ls = some es' → l ∈ ls → FlowEdge p es none (some w) :=
    fun hvisit hl => flowEdge_of_mem (hsub _ (mem_visitLabels hvisit hl hb' hw))
  cases h : b.transfer with
  | bug | raise | ret => simp [h, Transfer.labels] at hl
  | call args func k =>
    cases k with
    | dead | tail => simp [h, Transfer.labels, Return.labels] at hl
    | nonTail cont handler =>
      cases handler <;> exact key (h ▸ hes') (by simpa [h, Transfer.labels, Return.labels,
        Handler.labels] using hl)
  | case test cases default => exact key (h ▸ hes') (by simpa [h, Transfer.labels] using hl)
  | goto dst args =>
    obtain rfl : l = dst := by simpa [h, Transfer.labels] using hl
    exact absurd h (htr args)
  | runtime prim args l' => exact key (h ▸ hes') (by simpa [h, Transfer.labels] using hl)

end Edges

/-! ## The analysis -/

section Analysis

variable {S : Signatures} {τ : Types} {globals : List Var} {p : Program} {f : Function} {es : List Flow}

/-- The formals that take the arguments of a goto are as many. -/
theorem length_of_agrees {args : List Var} {l : Label} {b' : Block} {ts : List Ty}
    (hargs : τ.all args = some ts) (hformals : f.Formals l ts) (hb' : f.block? l = some b') :
    args.length = b'.args.length := by
  obtain ⟨b, hb, rfl⟩ := hformals
  obtain rfl := Option.some.inj (hb.symm.trans hb')
  simpa using (Fold.mapM_eq_some.mp hargs).length_eq

theorem visitLabels_total {ls : List Label} (h : ∀ l ∈ ls, ∃ b, f.block? l = some b) :
    ∃ es, visitLabels f ls = some es := by
  obtain ⟨ess, hess⟩ := Fold.mapM_total (f := visitLabelArgs f) (l := ls) fun l hl => by
    obtain ⟨b, hb⟩ := h l hl
    exact ⟨_, by rw [visitLabelArgs, labelArgs, hb]; rfl⟩
  exact ⟨ess.flatten, by rw [visitLabels, hess]; rfl⟩

theorem transferFlow_total {tr : Transfer} (hagree : tr.Agrees S τ p f)
    (hlabels : ∀ l ∈ tr.labels, ∃ b, f.block? l = some b) : ∃ es, transferFlow f tr = some es := by
  cases tr with
  | bug | raise | ret => exact ⟨[], rfl⟩
  | call args func k =>
    cases k with
    | dead | tail => exact ⟨[], rfl⟩
    | nonTail cont handler =>
      cases handler <;> exact visitLabels_total (by simpa [Transfer.labels, Return.labels,
        Handler.labels] using hlabels)
  | case test cases default => exact visitLabels_total hlabels
  | goto dst args =>
    obtain ⟨ts, hargs, hformals⟩ := hagree
    obtain ⟨b', hb'⟩ := hlabels dst (by simp [Transfer.labels])
    have hlen := length_of_agrees hargs hformals hb'
    exact ⟨_, by simp only [transferFlow, flowVarsLabelArgs, labelArgs, hb', Option.map_some,
      Option.bind_some, flowVarsVarTys, hlen, if_true]; rfl⟩
  | runtime prim args l => exact visitLabels_total hlabels

theorem transfersFlow_total (hscoped : p.Scoped globals) (hagree : p.Agrees S τ) :
    ∃ es, transfersFlow p = some es := by
  obtain ⟨ess, hess⟩ := Fold.mapM_total (l := p.functions) (f := fun (f : Function) =>
      (f.blocks.mapM fun b => transferFlow f b.transfer).map List.flatten) fun f hf => by
    obtain ⟨ess, hess⟩ := Fold.mapM_total (l := f.blocks) (f := fun b => transferFlow f b.transfer)
      fun b hb => transferFlow_total ((hagree f hf).2 b hb).1
        ((hscoped.functions f hf).targets ((hscoped.functions f hf).block?_of_mem hb))
    exact ⟨ess.flatten, by rw [hess]; rfl⟩
  exact ⟨ess.flatten, by rw [transfersFlow, hess]; rfl⟩

/-- **The analysis**: a formal is removed in favour of a variable that dominates it in the flow graph. -/
theorem analyze_spec (hscoped : p.Scoped globals) (hagree : p.Agrees S τ) :
    ∃ es get, transfersFlow p = some es ∧ analyze p = some get ∧
      ∀ x, ¬ keepVar get x → Dominates (FlowEdge p es) none (some (get x)) (some x) := by
  obtain ⟨es, hes⟩ := transfersFlow_total hscoped hagree
  obtain ⟨idom, hidom, hroot, hunreach, himm⟩ :=
    DirectedGraph.dominators_spec (closed : (flowGraph p es).Closed) none_mem_nodes
  refine ⟨es, getVar idom, hes, by rw [analyze, hes]; simp [hidom], fun x hx => ?_⟩
  by_cases hreach : (flowGraph p es).Reaches none (some x)
  · obtain ⟨d, hd, -, hdom⟩ := himm (some x) (by simp) hreach
    cases d with
    | none => exact absurd (by simp [keepVar, getVar, hd]) hx
    | some y =>
      have hget : getVar idom x = y := by simp [getVar, hd]
      exact hget ▸ hdom.dominates
  · exact absurd (by simp [keepVar, getVar, hunreach (some x) (by simp) hreach]) hx

end Analysis

/-! ## Paths that do not define the variable -/

section Paths

variable {globals : List Var} {p : Program} {f : Function} {es : List Flow} {x y v : Var}
  {pt pt' : Point}

/-- The flow reaches the variable around `y`. -/
abbrev Around (p : Program) (es : List Flow) (y v : Var) : Prop :=
  Avoids (FlowEdge p es) none (· = some y) (some v)

theorem around_of_root (h : FlowEdge p es none (some v)) (hne : v ≠ y) : Around p es y v :=
  .step (.root (by simp)) h (by simpa using hne)

variable (hscoped : p.Scoped globals) (hes : transfersFlow p = some es) (hf : f ∈ p.functions)

include hscoped hf in
/-- Globals and arguments are no formals. -/
theorem not_formal_of_given (hv : f.Given globals v) : v ∉ formals p := by
  intro hmem
  obtain ⟨g, hg, hmem⟩ := List.mem_flatMap.mp hmem
  obtain ⟨b, hb, hv'⟩ := List.mem_flatMap.mp hmem
  have hbind : g.Binds v (b.label, 0) := .formal ((hscoped.functions g hg).block?_of_mem hb) hv'
  exact hscoped.args g hg f hf hbind hv

include hscoped hf in
/-- Variables that statements bind are no formals. -/
theorem not_formal_of_statement {l : Label} {b : Block} {i : ℕ} {s : Statement}
    (hb : f.block? l = some b) (hs : b.statements[i]? = some s) (hv : s.var = some v) :
    v ∉ formals p := by
  intro hmem
  obtain ⟨g, hg, hmem⟩ := List.mem_flatMap.mp hmem
  obtain ⟨b', hb', hv'⟩ := List.mem_flatMap.mp hmem
  have hbind : g.Binds v (b'.label, 0) :=
    .formal ((hscoped.functions g hg).block?_of_mem hb') hv'
  have hbind' : f.Binds v (l, i + 1) := .statement hb hs hv
  obtain rfl := hscoped.apart g hg f hf hbind hbind'
  simpa using (hscoped.functions g hg).unique (.inl hbind) (.inl hbind')

include hscoped hf

theorem around_of_given (hnode : HasNode p es v) (hv : f.Given globals v) (hne : v ≠ y) :
    Around p es y v := by
  have hformal := not_formal_of_given hscoped hf hv
  exact around_of_root (flowEdge_rooted (hnode.resolve_left hformal) hformal) hne

include hes

/-- **One move** carries over that everything in scope is around `y`, but for `y` itself. -/
theorem around_of_move (hpt : ∀ v, HasNode p es v → f.InScope globals v pt → Around p es y v)
    (hmove : f.Moves pt pt') (hnode : HasNode p es v) (hne : v ≠ y)
    (hv : f.InScope globals v pt') : Around p es y v := by
  by_cases hdef : f.Defines globals v pt'
  · obtain hbind | ⟨hgiven, -⟩ := hdef
    · cases hbind with
      | statement hb hs hvar =>
        have hformal := not_formal_of_statement hscoped hf hb hs hvar
        exact around_of_root (flowEdge_rooted (hnode.resolve_left hformal) hformal) hne
      | @formal l b' hb' hmem =>
        cases hmove with
        | @transfer l₀ _ b hb hl =>
          have hbmem := Function.block?_mem hb
          by_cases htr : ∃ args, b.transfer = .goto l args
          · obtain ⟨args, htr⟩ := htr
            obtain ⟨i, hi⟩ := List.mem_iff_getElem?.mp hmem
            obtain ⟨a, ha, hmention, hedge⟩ := flowEdge_goto hes hf hbmem htr hb' hi
            have hscope : f.InScope globals a (l₀, b.statements.length) :=
              (hscoped.functions f hf).transfer hb (by rw [htr]; exact List.mem_of_getElem? ha)
            exact (hpt a (.inr hmention) hscope).step hedge (by simpa using hne)
          · exact around_of_root
              (flowEdge_visit hes hf hbmem hl (fun args h => htr ⟨args, h⟩) hb' hmem) hne
    · exact around_of_given hscoped hf hnode hgiven hne
  · exact hpt v hnode (hv.pred hmove hdef)

/-- **Everything in scope is around `y`** at the end of a path that does not define `y`. -/
theorem around_of_clear (hclear : Avoids f.Moves f.entry (f.Defines globals y) pt)
    (hnode : HasNode p es v) (hv : f.InScope globals v pt) : Around p es y v := by
  induction hclear generalizing v with
  | root hy =>
    obtain hbind | ⟨hgiven, -⟩ := hv.entry
    · exact absurd hbind (hscoped.functions f hf).not_binds_entry
    · refine around_of_given hscoped hf hnode hgiven ?_
      rintro rfl
      exact hy (.inr ⟨hgiven, rfl⟩)
  | @step pt pt' _ hmove hy ih =>
    refine around_of_move hscoped hes hf (fun v hnode hv => ih hnode hv) hmove hnode ?_ hv
    rintro rfl
    exact hy (by_contra fun hdef => (ih hnode (hv.pred hmove hdef)).notMem rfl)

/-- **Dominance in the flow graph gives dominance in the function.** -/
theorem inScope_of_dominates (hdom : Dominates (FlowEdge p es) none (some y) (some v))
    (hnode : HasNode p es v) (hv : f.InScope globals v pt) : f.InScope globals y pt :=
  fun hclear => hdom (around_of_clear hscoped hes hf hclear hnode hv)

/-- Where `y` gets defined, every other variable in scope is around it. -/
theorem around_of_defines (hreach : f.Reachable pt) (hy : f.Defines globals y pt)
    (hnode : HasNode p es v) (hne : v ≠ y) (hv : f.InScope globals v pt) : Around p es y v := by
  obtain hav | ⟨pt₁, hy₁, hfirst⟩ := avoids_or_exists_first (f.Defines globals y) hreach
  · exact absurd hy hav.notMem
  · obtain rfl := (hscoped.functions f hf).unique hy hy₁
    obtain rfl | ⟨pt₀, hclear, hmove⟩ := hfirst
    · obtain hbind | ⟨hgiven, -⟩ := hv.entry
      · exact absurd hbind (hscoped.functions f hf).not_binds_entry
      · exact around_of_given hscoped hf hnode hgiven hne
    · exact around_of_move hscoped hes hf
        (fun v hnode hv => around_of_clear hscoped hes hf hclear hnode hv) hmove hnode hne hv

end Paths

/-! ## Runs -/

section Runs

variable {W : World} {globals : List Var} {G : Env} {p : Program} {es : List Flow} {x y v : Var}

/-- What an activation keeps: a variable in scope has the value of the one that dominates it. -/
structure Equal (globals : List Var) (p : Program) (es : List Flow) (fr : Frame) : Prop where
  func : fr.func ∈ p.functions
  reach : fr.func.Reachable (fr.label, fr.index)
  equal : ∀ {v y}, HasNode p es v → Dominates (FlowEdge p es) none (some y) (some v) →
    fr.func.InScope globals v (fr.label, fr.index) → ∃ a, fr.env v = some a ∧ fr.env y = some a

variable (hscoped : p.Scoped globals) (hes : transfersFlow p = some es)

include hscoped hes

/-- **One move keeps the equalities**: variables not bound keep their values, and a variable bound by a
goto gets the value of its argument. -/
theorem Equal.move {fr : Frame} {q : Point} {ρ : Env} (h : Equal globals p es fr)
    (hmove : fr.func.Moves (fr.label, fr.index) q)
    (hkeep : ∀ z, ¬ fr.func.Binds z q → ρ z = fr.env z)
    (hbound : ∀ z, fr.func.Binds z q → ∃ a, ρ z = some a)
    (hflow : ∀ z, HasNode p es z → fr.func.Binds z q → FlowEdge p es none (some z) ∨
      ∃ a, FlowEdge p es (some a) (some z) ∧ HasNode p es a ∧
        fr.func.InScope globals a (fr.label, fr.index) ∧ ρ z = fr.env a) :
    Equal globals p es { fr with label := q.1, index := q.2, env := ρ } := by
  refine ⟨h.func, h.reach.tail hmove, fun {v y} hnode hdom hv => ?_⟩
  have hreach := h.reach.tail hmove
  -- a variable other than `v` that dominates it is not bound by the move
  have hother : v ≠ y → ρ y = fr.env y := fun hne => hkeep y fun hy => hdom
    (around_of_defines hscoped hes h.func hreach (.inl hy) hnode hne hv)
  by_cases hbind : fr.func.Binds v q
  · obtain ⟨a, ha⟩ := hbound v hbind
    obtain rfl | hne := eq_or_ne v y
    · exact ⟨a, ha, ha⟩
    · obtain hroot | ⟨z, hedge, hz, hscope, hval⟩ := hflow v hnode hbind
      · exact absurd (around_of_root hroot hne) hdom
      · obtain ⟨c, hc, hyc⟩ := h.equal hz (hdom.pred hedge (by simpa using hne)) hscope
        exact ⟨c, hval.trans hc, (hother hne).trans hyc⟩
  · have hv₀ : fr.func.InScope globals v (fr.label, fr.index) := by
      by_cases hdef : fr.func.Defines globals v q
      · exact (hdef.resolve_left hbind).1.inScope
      · exact hv.pred hmove hdef
    obtain ⟨a, ha, hya⟩ := h.equal hnode hdom hv₀
    refine ⟨a, (hkeep v hbind).trans ha, ?_⟩
    obtain rfl | hne := eq_or_ne v y
    · exact (hkeep v hbind).trans ha
    · exact (hother hne).trans hya

omit hes in
theorem Equal.activate (hG : ∀ x ∈ globals, ∃ a, G x = some a) {f : Function} {vs : List Val}
    {fr : Frame} (hf : f ∈ p.functions) (h : f.activate G vs = some fr) :
    Equal globals p es fr := by
  obtain ⟨hlen, rfl⟩ : f.args.length = vs.length ∧
      (⟨f, f.start, 0, G.sets (f.args.map Prod.fst) vs⟩ : Frame) = fr := by
    simpa [Function.activate, Option.ite_none_right_eq_some] using h
  refine ⟨hf, .refl, fun {v y} hnode hdom hv => ?_⟩
  obtain hbind | ⟨hgiven, -⟩ := hv.entry
  · exact absurd hbind (hscoped.functions f hf).not_binds_entry
  · obtain rfl | hne := eq_or_ne v y
    · obtain ⟨a, ha⟩ := Env.sets_bound (ρ := G) (hgiven.imp_left (hG v)) (by simpa using hlen)
      exact ⟨a, ha, ha⟩
    · exact absurd (around_of_given hscoped hf hnode hgiven hne) hdom

omit hscoped hes in
/-- A transfer is at the end of its block. -/
theorem Equal.index {fr : Frame} (h : Equal globals p es fr) {b : Block}
    (hb : fr.func.block? fr.label = some b) (hnone : b.statements[fr.index]? = none) :
    fr.index = b.statements.length := by
  have hge : b.statements.length ≤ fr.index := List.getElem?_eq_none_iff.mp hnone
  exact Nat.le_antisymm (Function.Reachable.index_le h.reach hb) hge

theorem Equal.enter {fr fr' : Frame} {tr : Transfer} {l : Label} {vs : List Val} {I : Frame → Prop}
    (h : Equal globals p es fr) (hat : fr.At tr) (hpass : tr.Passes p I fr.env l vs)
    (henter : fr.enter l vs = some fr') : Equal globals p es fr' := by
  obtain ⟨b, hb, hnone, htr⟩ := hat
  obtain ⟨b', hb', henter⟩ := Option.bind_eq_some_iff.mp henter
  obtain ⟨hlen, rfl⟩ := (Option.ite_none_right_eq_some.mp henter).imp_right Option.some.inj
  have hindex := h.index hb hnone
  have hl : l ∈ b.transfer.labels := htr ▸ hpass.mem_labels
  have hnodup := (hscoped.functions _ h.func).formals hb'
  have hbinds : ∀ z, fr.func.Binds z (l, 0) ↔ z ∈ b'.args.map Prod.fst := by
    refine fun z => ⟨fun hz => ?_, .formal hb'⟩
    cases hz with
    | formal hb'' hz => exact Option.some.inj (hb'.symm.trans hb'') ▸ hz
  have hall := Env.all_sets (ρ := fr.env) hnodup (by simpa using hlen)
  refine h.move hscoped hes (q := (l, 0)) (hindex ▸ .transfer hb hl)
    (fun z hz => Env.sets_of_notMem fun hmem => hz ((hbinds z).mpr hmem))
    (fun z hz => Env.exists_of_all hall ((hbinds z).mp hz)) fun z _ hz => ?_
  have hz := (hbinds z).mp hz
  by_cases hgoto : ∃ args, b.transfer = .goto l args
  · obtain ⟨args, hgoto⟩ := hgoto
    obtain ⟨i, hi⟩ := List.mem_iff_getElem?.mp hz
    obtain ⟨a, ha, hmention, hedge⟩ := flowEdge_goto hes h.func (Function.block?_mem hb) hgoto hb' hi
    refine .inr ⟨a, hedge, .inr hmention, ?_, ?_⟩
    · rw [hindex]
      exact (hscoped.functions _ h.func).transfer hb (by rw [hgoto]; exact List.mem_of_getElem? ha)
    · obtain ⟨v, hv, hz'⟩ := Env.all_getElem? hall hi
      obtain ⟨w, hw, ha'⟩ := Env.all_getElem? (hpass.of_goto (htr.symm.trans hgoto)) ha
      obtain rfl := Option.some.inj (hv.symm.trans hw)
      exact hz'.trans ha'.symm
  · exact .inl (flowEdge_visit hes h.func (Function.block?_mem hb) hl
      (fun args hgoto' => hgoto ⟨args, hgoto'⟩) hb' hz)

/-- **Activations keep the equalities.** -/
theorem kept (hG : ∀ x ∈ globals, ∃ a, G x = some a) : Kept W p G (Equal globals p es) where
  activate hf h := .activate hscoped hG hf.mem h
  enter h hat hpass henter := h.enter hscoped hes hat hpass henter
  advance {fr b s t v t'} h hb hs heval := by
    have hlt := (List.getElem?_eq_some_iff.mp hs).1
    have hbinds : ∀ z, fr.func.Binds z (fr.label, fr.index + 1) → s.var = some z := by
      rintro z (_ | ⟨hb', hs', hz⟩)
      obtain rfl := Option.some.inj (hb.symm.trans hb')
      obtain rfl := Option.some.inj (hs.symm.trans hs')
      exact hz
    refine h.move hscoped hes (q := (fr.label, fr.index + 1)) (.statement hb hlt) (fun z hz => ?_)
      (fun z hz => ?_) (fun z hnode hz => ?_)
    · cases hvar : s.var with
      | none => rfl
      | some x =>
        refine Env.set_of_ne ?_
        rintro rfl
        exact hz (.statement hb hs hvar)
    · simp [hbinds z hz]
    · have hformal := not_formal_of_statement hscoped h.func hb hs (hbinds z hz)
      exact .inl (flowEdge_rooted (hnode.resolve_left hformal) hformal)

end Runs

end MLton.Ssa.CommonArg
