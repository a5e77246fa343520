import MLton.Machinery.Simulation
import MLton.Ssa.Defined

/-!
# Ssa/Stepwise — programs that run in step, one of them with quiet steps of its own

A pass that leaves the statements of a program where they are, and puts others around the gotos and the starts of
blocks, gives a program that runs in step with it.  What has to be known is what activations have in common
(`Refines`); the rest, the calls, the exceptions and the world, goes the same way on both sides.
-/

namespace MLton.Ssa

open MLton.Effects MLton.Simulation

/-! ## Binding formals -/

namespace Env

variable {ρ σ : Env} {x y : Var} {v : Val} {xs ys : List Var} {vs : List Val}

/-- A formal gets its value. -/
theorem sets_of_mem_zip (hxs : xs.Nodup) (h : (x, v) ∈ xs.zip vs) : ρ.sets xs vs x = some v := by
  induction xs generalizing ρ vs with
  | nil => simp at h
  | cons z xs ih =>
    cases vs with
    | nil => simp at h
    | cons w vs =>
      obtain ⟨hz, hxs⟩ := List.nodup_cons.mp hxs
      obtain heq | h := List.mem_cons.mp h
      · obtain ⟨rfl, rfl⟩ := Prod.mk.inj heq
        exact (sets_of_notMem hz).trans set_self
      · exact ih hxs h

/-- A formal gets the value of its argument. -/
theorem sets_of_args (hys : ys.Nodup) (hvs : ρ.all xs = some vs) (h : (x, y) ∈ xs.zip ys) :
    σ.sets ys vs y = ρ x := by
  induction xs generalizing σ ys vs with
  | nil => simp at h
  | cons z xs ih =>
    cases ys with
    | nil => simp at h
    | cons w ys =>
      obtain ⟨v, vs, rfl, hv, hvs⟩ := all_cons.mp hvs
      obtain ⟨hw, hys⟩ := List.nodup_cons.mp hys
      obtain heq | h := List.mem_cons.mp h
      · obtain ⟨rfl, rfl⟩ := Prod.mk.inj heq
        exact ((sets_of_notMem hw).trans set_self).trans hv.symm
      · exact (ih hys hvs h : (σ.set w v).sets ys vs y = ρ x)

/-- Variables that are all bound have values. -/
theorem exists_all (h : ∀ x ∈ xs, ∃ v, ρ x = some v) : ∃ vs, ρ.all xs = some vs := Fold.mapM_total h

end Env

/-! ## What activations have in common -/

/-- A step that the world does not see, and that does not depend on what waits. -/
def Frame.Quiet (W : World) (p : Program) (G : Env) (fr fr' : Frame) : Prop :=
  ∀ stack t, State.step W p G (.running fr stack t) = some (.running fr' stack t)

/-- The transfer is a goto. -/
def Transfer.isGoto : Transfer → Bool
  | .goto _ _ => true
  | _ => false

/-- The frame may go to the block. -/
def Frame.enters (fr : Frame) (dst : Label) (args : List Var) : Option Frame :=
  (fr.env.all args).bind (fr.enter dst)

/-- **What activations of the two programs have in common**: `F` relates them, and `I` is what is known of those of
the first. -/
structure Refines (W : World) (p p' : Program) (G : Env) (I : Frame → Prop) (F : Frame → Frame → Prop) : Prop where
  main : p'.main = p.main
  functions : ∀ func, Option.Rel (fun f f' : Function => ∀ vs, Option.Rel F (f.activate G vs) (f'.activate G vs))
    (p.function? func) (p'.function? func)
  block : ∀ {fr fr'}, F fr fr' → I fr → ∃ b, fr.func.block? fr.label = some b
  statement : ∀ {fr fr' b s}, F fr fr' → I fr → fr.func.block? fr.label = some b → b.statements[fr.index]? = some s →
    ∃ b', fr'.func.block? fr'.label = some b' ∧ b'.statements[fr'.index]? = some s ∧
      (∀ x ∈ s.exp.vars, fr'.env x = fr.env x) ∧ ∀ v, F (fr.advance s v) (fr'.advance s v)
  transfer : ∀ {fr fr' tr}, F fr fr' → I fr → fr.At tr → tr.isGoto = false →
    fr'.At tr ∧ ∀ x ∈ tr.vars, fr'.env x = fr.env x
  enter : ∀ {fr fr' tr l}, F fr fr' → I fr → fr.At tr → tr.isGoto = false → l ∈ tr.labels → ∀ vs,
    match fr.enter l vs with
    | none => fr'.enter l vs = none
    | some fr₁ => ∃ fr₂ fr₁', fr'.enter l vs = some fr₂ ∧
        Relation.ReflTransGen (Frame.Quiet W p' G) fr₂ fr₁' ∧ F fr₁ fr₁'
  goto : ∀ {fr fr' dst args}, F fr fr' → I fr → fr.At (.goto dst args) →
    ∃ fr₁ fr₁', fr.enters dst args = some fr₁ ∧ Relation.TransGen (Frame.Quiet W p' G) fr' fr₁' ∧ F fr₁ fr₁'

section Match

variable (F : Frame → Frame → Prop)

/-- Activations that wait for the same. -/
structure Waiting.Matches (w w' : Waiting) : Prop where
  frame : F w.frame w'.frame
  ret : w'.ret = w.ret

/-- **States that match**: the activations do, and the world has seen the same. -/
inductive State.Matches : State → State → Prop
  | running {fr fr' stack stack' t} : F fr fr' → List.Forall₂ (Waiting.Matches F) stack stack' →
      State.Matches (.running fr stack t) (.running fr' stack' t)
  | ended (r : Result (List Val) (List Val)) (t : Trace) : State.Matches (.ended r t) (.ended r t)

end Match

section Steps

variable {W : World} {p p' : Program} {G : Env} {I : Frame → Prop} {F : Frame → Frame → Prop} {fr fr' : Frame}
  {stack stack' : List Waiting} {t : Trace}

theorem Frame.Quiet.steps (h : Relation.ReflTransGen (Frame.Quiet W p G) fr fr') (stack : List Waiting) (t : Trace) :
    Steps (State.step W p G) (.running fr stack t) (.running fr' stack t) := by
  induction h with
  | refl => exact .refl
  | tail _ hstep ih => exact ih.tail (hstep stack t)

theorem Frame.Quiet.steps₁ (h : Relation.TransGen (Frame.Quiet W p G) fr fr') (stack : List Waiting) (t : Trace) :
    Steps₁ (State.step W p G) (.running fr stack t) (.running fr' stack t) := by
  induction h with
  | single hstep => exact .single (hstep stack t)
  | tail _ hstep ih => exact ih.tail (hstep stack t)

/-- What a step of the first program comes to: the second does not step, or comes in steps to what matches. -/
def Answers (W : World) (p' : Program) (G : Env) (F : Frame → Frame → Prop) (next next' : Option State) : Prop :=
  match next with
  | none => next' = none
  | some s₁ => ∃ s₂ s₁', next' = some s₂ ∧ Steps (State.step W p' G) s₂ s₁' ∧ State.Matches F s₁ s₁'

theorem Answers.of_rel {o o' : Option State} (h : Option.Rel (State.Matches F) o o') : Answers W p' G F o o' := by
  cases h with
  | some h => exact ⟨_, _, rfl, .refl, h⟩
  | none => rfl

variable (hF : Refines W p p' G I F)

include hF

/-- Both go to a block. -/
theorem Refines.answers_enter {tr : Transfer} {l : Label} (h : F fr fr') (hI : I fr) (hat : fr.At tr)
    (hgoto : tr.isGoto = false) (hl : l ∈ tr.labels) (hstack : List.Forall₂ (Waiting.Matches F) stack stack')
    (vs : List Val) : Answers W p' G F ((fr.enter l vs).map (State.running · stack t))
      ((fr'.enter l vs).map (State.running · stack' t)) := by
  have henter := hF.enter h hI hat hgoto hl vs
  cases hfr : fr.enter l vs with
  | none =>
    rw [hfr] at henter
    exact congrArg (Option.map _) henter
  | some fr₁ =>
    rw [hfr] at henter
    obtain ⟨fr₂, fr₁', hfr', hquiet, hF₁⟩ := henter
    exact ⟨_, _, by rw [hfr']; rfl, Frame.Quiet.steps hquiet stack' t, .running hF₁ hstack⟩

/-- A call comes back on both sides. -/
theorem Refines.answers_comeBack {f : Function} (hheld : Stacked p I f stack)
    (hstack : List.Forall₂ (Waiting.Matches F) stack stack') (vs : List Val) :
    Answers W p' G F (State.comeBack vs t stack) (State.comeBack vs t stack') := by
  cases hstack with
  | nil => exact ⟨_, _, rfl, .refl, .ended _ _⟩
  | @cons w w' _ _ hw hstack =>
    obtain ⟨hI, ⟨args, func, g, hcall, -⟩, -⟩ := hheld
    obtain ⟨fr, ret⟩ := w
    obtain ⟨fr', ret'⟩ := w'
    obtain ⟨hfr, hret⟩ := hw
    obtain rfl : ret' = ret := hret
    cases ret' with
    | nonTail cont handler =>
      exact hF.answers_enter hfr hI hcall rfl (List.mem_cons_self ..) hstack vs
    | dead | tail => rfl

/-- An exception goes up on both sides. -/
theorem Refines.answers_throw (vs : List Val) (hstack : List.Forall₂ (Waiting.Matches F) stack stack') :
    ∀ {f : Function}, Stacked p I f stack →
      Answers W p' G F (State.throw vs t stack) (State.throw vs t stack') := by
  induction hstack with
  | nil => exact fun _ => ⟨_, _, rfl, .refl, .ended _ _⟩
  | @cons w w' _ _ hw hstack ih =>
    intro f hheld
    obtain ⟨hI, ⟨args, func, g, hcall, -⟩, hheld⟩ := hheld
    obtain ⟨fr, ret⟩ := w
    obtain ⟨fr', ret'⟩ := w'
    obtain ⟨hfr, hret⟩ := hw
    obtain rfl : ret' = ret := hret
    cases ret' with
    | nonTail cont handler =>
      cases handler with
      | caller => exact ih hheld
      | dead => rfl
      | handle l =>
        exact hF.answers_enter hfr hI hcall rfl (by simp [Transfer.labels, Return.labels, Handler.labels]) hstack vs
    | dead | tail => rfl

/-- **Transfers that are no gotos** do the same. -/
theorem Refines.answers_transfer {tr : Transfer} (h : F fr fr') (hI : I fr) (hheld : Stacked p I fr.func stack)
    (hat : fr.At tr) (hgoto : tr.isGoto = false) (hstack : List.Forall₂ (Waiting.Matches F) stack stack') :
    Answers W p' G F (tr.step W p G fr stack t) (tr.step W p' G fr' stack' t) := by
  obtain ⟨-, henv⟩ := hF.transfer h hI hat hgoto
  cases tr with
  | bug => exact ⟨_, _, rfl, .refl, .ended _ _⟩
  | goto => cases hgoto
  | call args func k =>
    have hargs : fr'.env.all args = fr.env.all args := Env.all_congr henv
    simp only [Transfer.step, Option.bind_eq_bind, hargs]
    cases fr.env.all args with
    | none => rfl
    | some vs =>
      rw [Option.bind_some, Option.bind_some]
      refine .of_rel (rel_bind (hF.functions func) fun hf => rel_bind (hf vs) fun hcallee => ?_)
      cases k with
      | tail => exact .some (.running hcallee hstack)
      | dead | nonTail => exact .some (.running hcallee (.cons ⟨h, rfl⟩ hstack))
  | case test cases default =>
    simp only [Transfer.step, Option.bind_eq_bind, henv test (List.mem_singleton.mpr rfl)]
    cases fr.env test with
    | none => rfl
    | some v =>
      simp only [Option.bind_some]
      cases htarget : cases.target v default with
      | none => rfl
      | some lvs =>
        simpa [Option.map_eq_bind, Function.comp_def] using
          hF.answers_enter h hI hat rfl (Cases.target_mem htarget) hstack lvs.2
  | raise xs =>
    have hxs : fr'.env.all xs = fr.env.all xs := Env.all_congr henv
    simp only [Transfer.step, Option.bind_eq_bind, hxs]
    cases fr.env.all xs with
    | none => rfl
    | some vs => exact hF.answers_throw vs hstack hheld
  | ret xs =>
    have hxs : fr'.env.all xs = fr.env.all xs := Env.all_congr henv
    simp only [Transfer.step, Option.bind_eq_bind, hxs]
    cases fr.env.all xs with
    | none => rfl
    | some vs => exact hF.answers_comeBack hheld hstack vs
  | runtime prim args l =>
    have hargs : fr'.env.all args = fr.env.all args := Env.all_congr henv
    simp only [Transfer.step, Option.bind_eq_bind, hargs]
    cases fr.env.all args with
    | none => rfl
    | some vs =>
      simp only [Option.bind_some, World.runtimeCall]
      cases W.runtime t prim vs with
      | none => exact ⟨_, _, rfl, .refl, .ended _ _⟩
      | some rs =>
        simpa [Option.map_eq_bind, Function.comp_def] using
          hF.answers_enter h hI hat rfl (List.mem_singleton.mpr rfl) hstack rs

/-! ## One step -/

omit hF in
theorem State.step_transfer {tr : Transfer} (hat : fr.At tr) :
    State.step W p G (.running fr stack t) = tr.step W p G fr stack t := by
  obtain ⟨b, hb, hnone, rfl⟩ := hat
  simp [State.step, hb, hnone]

/-- **Statements** do the same. -/
theorem Refines.answers_statement {b : Block} {s : Statement} (h : F fr fr') (hI : I fr)
    (hb : fr.func.block? fr.label = some b) (hs : b.statements[fr.index]? = some s)
    (hstack : List.Forall₂ (Waiting.Matches F) stack stack') :
    Answers W p' G F (State.step W p G (.running fr stack t)) (State.step W p' G (.running fr' stack' t)) := by
  obtain ⟨b', hb', hs', henv, hnext⟩ := hF.statement h hI hb hs
  simp only [State.step, Option.bind_eq_bind, hb, hb', Option.bind_some, hs, hs', Exp.eval_congr henv]
  obtain ⟨r, t'⟩ := s.exp.eval W fr.env t
  cases r with
  | value v => exact ⟨_, _, rfl, .refl, .running (hnext v) hstack⟩
  | gone => exact ⟨_, _, rfl, .refl, .ended _ _⟩
  | _ => rfl

omit hF in
theorem State.step_goto {dst : Label} {args : List Var} {fr₁ : Frame} (hat : fr.At (.goto dst args))
    (henters : fr.enters dst args = some fr₁) :
    State.step W p G (.running fr stack t) = some (.running fr₁ stack t) := by
  obtain ⟨vs, hvs, henter⟩ := Option.bind_eq_some_iff.mp henters
  rw [State.step_transfer hat]
  simp [Transfer.step, hvs, henter]

/-- **One step**: the second program answers it, or the first one takes a goto and the second comes to what
matches. -/
theorem Refines.step {s s' : State} (hheld : s.Held p I) (hs : State.Matches F s s') :
    Answers W p' G F (s.step W p G) (s'.step W p' G) ∨
      ∃ s₁ s₁', s.step W p G = some s₁ ∧ Steps₁ (State.step W p' G) s' s₁' ∧ State.Matches F s₁ s₁' := by
  cases hs with
  | ended => exact .inl rfl
  | @running fr fr' stack stack' t h hstack =>
    obtain ⟨hI, hheld⟩ := hheld
    obtain ⟨b, hb⟩ := hF.block h hI
    cases hs : b.statements[fr.index]? with
    | some st => exact .inl (hF.answers_statement h hI hb hs hstack)
    | none =>
      have hat : fr.At b.transfer := ⟨b, hb, hs, rfl⟩
      by_cases hgoto : b.transfer.isGoto = false
      · have hat' := (hF.transfer h hI hat hgoto).1
        rw [State.step_transfer hat, State.step_transfer hat']
        exact .inl (hF.answers_transfer h hI hheld hat hgoto hstack)
      · cases htr : b.transfer with
        | goto dst args =>
          rw [htr] at hat
          obtain ⟨fr₁, fr₁', henters, hquiet, hF₁⟩ := hF.goto h hI hat
          exact .inr ⟨_, _, State.step_goto hat henters, Frame.Quiet.steps₁ hquiet stack' t, .running hF₁ hstack⟩
        | _ => exact absurd (by rw [htr]; rfl) hgoto

/-- **The programs run in step.** -/
theorem Refines.inStep (hI : Kept W p G I) :
    InStep (State.step W p G) (State.step W p' G) (State.Held p I) (State.Matches F) where
  kept hheld hstep := State.held_step hI hheld hstep
  next {s s₁ s'} hheld hs hstep := by
    obtain hanswers | ⟨s₂, s₁', hs₂, hsteps, hmatch⟩ := hF.step hheld hs
    · rw [hstep] at hanswers
      obtain ⟨s₂, s₁', hs₂, hsteps, hmatch⟩ := hanswers
      exact ⟨s₁', .head' hs₂ hsteps, hmatch⟩
    · obtain rfl := Option.some.inj (hstep.symm.trans hs₂)
      exact ⟨s₁', hsteps, hmatch⟩
  stuck {s s'} hheld hs hstep := by
    obtain hanswers | ⟨s₂, _, hs₂, -⟩ := hF.step hheld hs
    · rwa [hstep] at hanswers
    · cases hs₂.symm.trans hstep

/-! ## Whole runs -/

omit hF in
/-- What a program reaches is what it comes to in steps. -/
theorem Program.reaches_iff {s : State} :
    p.Reaches W G s ↔ ∃ s₀, p.init G = some s₀ ∧ Steps (State.step W p G) s₀ s := by
  constructor
  · intro h
    induction h with
    | init hinit => exact ⟨_, hinit, .refl⟩
    | step _ hstep ih =>
      obtain ⟨s₀, hs₀, hsteps⟩ := ih
      exact ⟨s₀, hs₀, hsteps.tail hstep⟩
  · rintro ⟨s₀, hs₀, hsteps⟩
    induction hsteps with
    | refl => exact .init hs₀
    | tail _ hstep ih => exact .step ih hstep

theorem Refines.init : Option.Rel (State.Matches F) (p.init G) (p'.init G) := by
  rw [Program.init, Program.init, hF.main]
  exact rel_bind (hF.functions p.main) fun hf => rel_map (hf []) fun h => .running h .nil

/-- **What the first program reaches, the second one reaches a match of**, which is stuck where the first is. -/
theorem Refines.reaches (hI : Kept W p G I) {s : State} (h : p.Reaches W G s) :
    ∃ s', p'.Reaches W G s' ∧ State.Matches F s s' ∧ (s.step W p G = none ↔ s'.step W p' G = none) := by
  obtain ⟨s₀, hs₀, hsteps⟩ := Program.reaches_iff.mp h
  obtain ⟨s₀', hs₀', hmatch⟩ := exists_of_rel hF.init hs₀
  have hheld := (Program.Reaches.init hs₀).held hI
  obtain ⟨s', hsteps', hs⟩ := (hF.inStep hI).reaches hheld hmatch hsteps
  have hheld' := (hF.inStep hI).kept_steps hheld hsteps
  exact ⟨s', Program.reaches_iff.mpr ⟨s₀', hs₀', hsteps'⟩, hs, (hF.inStep hI).stuck_iff hheld' hs⟩

/-- **What the second program reaches is on the way to the match of something the first one reaches.** -/
theorem Refines.reaches_of (hI : Kept W p G I) {s' : State} (h : p'.Reaches W G s') :
    ∃ s s'', p.Reaches W G s ∧ State.Matches F s s'' ∧ Steps (State.step W p' G) s' s'' := by
  obtain ⟨s₀', hs₀', hsteps'⟩ := Program.reaches_iff.mp h
  obtain ⟨s₀, hs₀, hmatch⟩ := exists_of_rel_right hF.init hs₀'
  have hheld := (Program.Reaches.init hs₀).held hI
  obtain ⟨s, s'', hsteps, hs, hs''⟩ := (hF.inStep hI).reaches_of hheld hmatch hsteps'
  exact ⟨s, s'', Program.reaches_iff.mpr ⟨s₀, hs₀, hsteps⟩, hs, hs''⟩

end Steps

end MLton.Ssa
