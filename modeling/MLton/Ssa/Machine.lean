import MLton.Ssa.Semantics

/-!
# Ssa/Machine — running a whole program

A machine for programs: the activation at hand, the ones that wait for a call to come back, and the
trace of what the world has seen.  Calls, returns and raises pass any number of values.  The globals are
an environment that every activation starts from.

What the activations keep, one at a time, holds of all of them in every state reached (`Reaches.held`).
-/

namespace MLton.Ssa

open MLton.Effects

/-- An activation: a point of a function, and the variables bound so far. -/
structure Frame where
  func : Function
  label : Label
  index : ℕ
  env : Env

/-- An activation that waits for a call to come back, and what it does then. -/
structure Waiting where
  frame : Frame
  ret : Return

/-- The state of the machine. -/
inductive State where
  | running (frame : Frame) (stack : List Waiting) (t : Trace)
  | ended (r : Result (List Val) (List Val)) (t : Trace)

namespace Frame

/-- Go to a block, passing it values. -/
def enter (fr : Frame) (l : Label) (vs : List Val) : Option Frame :=
  (fr.func.block? l).bind fun b =>
    if b.args.length = vs.length then
      some { fr with label := l, index := 0, env := fr.env.sets (b.args.map Prod.fst) vs }
    else none

/-- Go on behind a statement that had a value. -/
def advance (fr : Frame) (s : Statement) (v : Val) : Frame :=
  { fr with index := fr.index + 1, env := s.var.elim fr.env (fr.env.set · v) }

end Frame

/-- The activation of a function. -/
def Function.activate (f : Function) (globals : Env) (vs : List Val) : Option Frame :=
  if f.args.length = vs.length then some ⟨f, f.start, 0, globals.sets (f.args.map Prod.fst) vs⟩
  else none

namespace State

/-- Values come back to the activation that waits for them. -/
def comeBack (vs : List Val) (t : Trace) : List Waiting → Option State
  | [] => some (ended (.value vs) t)
  | ⟨fr, .nonTail cont _⟩ :: stack => (fr.enter cont vs).map (running · stack t)
  | _ => none

/-- An exception goes up to the nearest handler. -/
def throw (vs : List Val) (t : Trace) : List Waiting → Option State
  | [] => some (ended (.raised vs) t)
  | ⟨fr, .nonTail _ (.handle l)⟩ :: stack => (fr.enter l vs).map (running · stack t)
  | ⟨_, .nonTail _ .caller⟩ :: stack => throw vs t stack
  | _ => none

end State

section

variable (W : World) (p : Program) (globals : Env)

/-- What a transfer does. -/
def Transfer.step (fr : Frame) (stack : List Waiting) (t : Trace) : Transfer → Option State
  | .bug => some (.ended .bug t)
  | .call args func k => do
    let vs ← fr.env.all args
    let f ← p.function? func
    let callee ← f.activate globals vs
    match k with
    | .tail => pure (.running callee stack t)
    | k => pure (.running callee (⟨fr, k⟩ :: stack) t)
  | .case test cases default => do
    let v ← fr.env test
    let (l, vs) ← cases.target v default
    let fr ← fr.enter l vs
    pure (.running fr stack t)
  | .goto dst args => do
    let vs ← fr.env.all args
    let fr ← fr.enter dst vs
    pure (.running fr stack t)
  | .raise xs => do
    let vs ← fr.env.all xs
    State.throw vs t stack
  | .ret xs => do
    let vs ← fr.env.all xs
    State.comeBack vs t stack
  | .runtime prim args l => do
    let vs ← fr.env.all args
    match W.runtimeCall prim vs t with
    | (.value rs, t) =>
      let fr ← fr.enter l rs
      pure (.running fr stack t)
    | (_, t) => pure (.ended .gone t)

/-- One step; there is none from a state that has gone wrong or has ended. -/
def State.step : State → Option State
  | .ended _ _ => none
  | .running fr stack t => do
    let b ← fr.func.block? fr.label
    match b.statements[fr.index]? with
    | none => b.transfer.step W p globals fr stack t
    | some s =>
      match s.exp.eval W fr.env t with
      | (.value v, t) => pure (.running (fr.advance s v) stack t)
      | (.gone, t) => pure (.ended .gone t)
      | _ => none

/-- The state before the run. -/
def Program.init : Option State :=
  (p.function? p.main).bind fun f => (f.activate globals []).map (.running · [] [])

/-- A state that some run of the program reaches. -/
inductive Program.Reaches : State → Prop
  | init {s : State} : p.init globals = some s → Program.Reaches s
  | step {s s' : State} : Program.Reaches s → s.step W p globals = some s' → Program.Reaches s'

end

/-! ## Who comes back to whom -/

/-- The frame is at this transfer. -/
def Frame.At (fr : Frame) (tr : Transfer) : Prop :=
  ∃ b, fr.func.block? fr.label = some b ∧ b.statements[fr.index]? = none ∧ b.transfer = tr

namespace Program

variable (p : Program)

/-- The function has a call of the other that comes back in this way. -/
def Calls (k : Return) (f g : Function) : Prop :=
  ∃ b ∈ f.blocks, ∃ args func, b.transfer = .call args func k ∧ p.function? func = some g

/-- What the second function returns, the first one may return: it gets there by tail calls. -/
abbrev TailReaches : Function → Function → Prop := Relation.ReflTransGen (p.Calls .tail)

/-- What the second function raises, the first one may raise: it gets there by calls that let
exceptions pass. -/
abbrev Escapes : Function → Function → Prop :=
  Relation.ReflTransGen fun f g => p.Calls .tail f g ∨ ∃ cont, p.Calls (.nonTail cont .caller) f g

variable {p}

theorem TailReaches.escapes {f g : Function} (h : p.TailReaches f g) : p.Escapes f g :=
  Relation.ReflTransGen.mono (fun _ _ => Or.inl) _ _ h

end Program

theorem Frame.At.calls {p : Program} {fr : Frame} {args : List Var} {func : Func} {k : Return}
    {g : Function} (h : fr.At (.call args func k)) (hg : p.function? func = some g) :
    p.Calls k fr.func g := by
  obtain ⟨b, hb, -, htr⟩ := h
  exact ⟨b, Function.block?_mem hb, args, func, htr, hg⟩

/-! ## What every activation keeps -/

/-- The values a transfer may pass to a block of its own function, where every activation has the
property `I`. -/
inductive Transfer.Passes (p : Program) (I : Frame → Prop) (ρ : Env) :
    Transfer → Label → List Val → Prop
  | returned {args : List Var} {func : Func} {cont : Label} {handler : Handler} {vs : List Val}
      {g : Function} {fr : Frame} {xs : List Var} : p.function? func = some g →
      p.TailReaches g fr.func → I fr → fr.At (.ret xs) → fr.env.all xs = some vs →
      Passes p I ρ (.call args func (.nonTail cont handler)) cont vs
  | raised {args : List Var} {func : Func} {cont l : Label} {vs : List Val} {g : Function}
      {fr : Frame} {xs : List Var} : p.function? func = some g → p.Escapes g fr.func → I fr →
      fr.At (.raise xs) → fr.env.all xs = some vs →
      Passes p I ρ (.call args func (.nonTail cont (.handle l))) l vs
  | case {test : Var} {cases : Cases} {default : Option Label} {v : Val} {l : Label} {vs : List Val} :
      ρ test = some v → cases.target v default = some (l, vs) →
      Passes p I ρ (.case test cases default) l vs
  | goto {dst : Label} {args : List Var} {vs : List Val} :
      ρ.all args = some vs → Passes p I ρ (.goto dst args) dst vs
  | runtime {prim : Prim} {args : List Var} {l : Label} {vs : List Val} :
      Passes p I ρ (.runtime prim args l) l vs

/-- The values a function may be activated with. -/
inductive Function.Activates (p : Program) (I : Frame → Prop) (f : Function) : List Val → Prop
  | main : p.function? p.main = some f → Activates p I f []
  | call {fr : Frame} {args : List Var} {func : Func} {k : Return} {vs : List Val} : I fr →
      fr.At (.call args func k) → p.function? func = some f → fr.env.all args = some vs →
      Activates p I f vs

namespace Transfer

variable {p : Program} {I : Frame → Prop} {ρ : Env} {tr : Transfer} {l : Label} {vs : List Val}

theorem Passes.of_goto {args : List Var} (h : tr.Passes p I ρ l vs) (htr : tr = .goto l args) :
    ρ.all args = some vs := by
  subst htr
  cases h with
  | goto hvs => exact hvs

theorem Passes.mem_labels (h : tr.Passes p I ρ l vs) : l ∈ tr.labels := by
  cases h with
  | returned => exact List.mem_cons_self ..
  | raised => simp [labels, Return.labels, Handler.labels]
  | case _ htarget => exact Cases.target_mem htarget
  | goto | runtime => exact List.mem_singleton.mpr rfl

end Transfer

theorem Function.Activates.mem {p : Program} {I : Frame → Prop} {f : Function} {vs : List Val}
    (h : f.Activates p I vs) : f ∈ p.functions := by
  cases h with
  | main hf => exact Program.function?_mem hf
  | call _ _ hf _ => exact Program.function?_mem hf

section Kept

variable {W : World} {p : Program} {globals : Env} {I : Frame → Prop}

/-- Activations have the property at their start and keep it as they move. -/
structure Kept (W : World) (p : Program) (globals : Env) (I : Frame → Prop) : Prop where
  activate : ∀ {f : Function} {vs fr}, f.Activates p I vs → f.activate globals vs = some fr → I fr
  advance : ∀ {fr b s t v t'}, I fr → fr.func.block? fr.label = some b →
    b.statements[fr.index]? = some s → s.exp.eval W fr.env t = (.value v, t') → I (fr.advance s v)
  enter : ∀ {fr tr l vs fr'}, I fr → fr.At tr → tr.Passes p I fr.env l vs →
    fr.enter l vs = some fr' → I fr'

/-- The waiting activations have the property, each waits at a call, and what it called has come by
tail calls to the function that runs, or waits, above it. -/
def Stacked (p : Program) (I : Frame → Prop) : Function → List Waiting → Prop
  | _, [] => True
  | f, w :: stack => I w.frame ∧
    (∃ args func g, w.frame.At (.call args func w.ret) ∧ p.function? func = some g ∧
      p.TailReaches g f) ∧ Stacked p I w.frame.func stack

/-- All activations of the state have the property. -/
def State.Held (p : Program) (I : Frame → Prop) : State → Prop
  | running fr stack _ => I fr ∧ Stacked p I fr.func stack
  | ended _ _ => True

/-- The activations of a state. -/
def State.frames : State → List Frame
  | running fr stack _ => fr :: stack.map Waiting.frame
  | ended _ _ => []

theorem Stacked.mem : ∀ {f : Function} {stack : List Waiting}, Stacked p I f stack → ∀ w ∈ stack, I w.frame
  | _, w :: stack, ⟨hw, _, hstack⟩, w', hw' => by
    obtain rfl | hw' := List.mem_cons.mp hw'
    · exact hw
    · exact hstack.mem w' hw'

theorem State.Held.frames {s : State} (h : s.Held p I) {fr : Frame} (hfr : fr ∈ s.frames) : I fr := by
  cases s with
  | ended => cases hfr
  | running fr' stack t =>
    obtain rfl | hfr := List.mem_cons.mp hfr
    · exact h.1
    · obtain ⟨w, hw, rfl⟩ := List.mem_map.mp hfr
      exact h.2.mem w hw

theorem Frame.enter_func {fr fr' : Frame} {l : Label} {vs : List Val} (h : fr.enter l vs = some fr') :
    fr'.func = fr.func := by
  obtain ⟨b, -, h⟩ := Option.bind_eq_some_iff.mp h
  obtain ⟨-, h⟩ := Option.ite_none_right_eq_some.mp h
  exact (Option.some.inj h) ▸ rfl

theorem Function.activate_func {f : Function} {vs : List Val} {fr : Frame}
    (h : f.activate globals vs = some fr) : fr.func = f := by
  obtain ⟨-, h⟩ := Option.ite_none_right_eq_some.mp h
  exact (Option.some.inj h) ▸ rfl

theorem State.held_of_enter (hI : Kept W p globals I) {fr : Frame} {tr : Transfer} {l : Label}
    {vs : List Val} {stack : List Waiting} {t : Trace} {s : State} (hfr : I fr) (hat : fr.At tr)
    (hpass : tr.Passes p I fr.env l vs) (hstack : Stacked p I fr.func stack)
    (h : (fr.enter l vs).map (running · stack t) = some s) : s.Held p I := by
  obtain ⟨fr', hfr', rfl⟩ := Option.map_eq_some_iff.mp h
  exact ⟨hI.enter hfr hat hpass hfr', (Frame.enter_func hfr').symm ▸ hstack⟩

theorem State.held_comeBack (hI : Kept W p globals I) {fr : Frame} {xs : List Var} {vs : List Val}
    {t : Trace} {s : State} (hfr : I fr) (hat : fr.At (.ret xs)) (hvs : fr.env.all xs = some vs) :
    ∀ {stack : List Waiting}, Stacked p I fr.func stack → comeBack vs t stack = some s → s.Held p I
  | [], _, h => by
    obtain rfl := Option.some.inj h
    trivial
  | ⟨_, .nonTail _ _⟩ :: _, ⟨hw, ⟨_, _, _, hcall, hg, hreach⟩, hstack⟩, h =>
    held_of_enter hI hw hcall (.returned hg hreach hfr hat hvs) hstack h

theorem State.held_throw (hI : Kept W p globals I) {fr : Frame} {xs : List Var} {vs : List Val}
    {t : Trace} {s : State} (hfr : I fr) (hat : fr.At (.raise xs)) (hvs : fr.env.all xs = some vs) :
    ∀ {f : Function} {stack : List Waiting}, Stacked p I f stack → p.Escapes f fr.func →
      throw vs t stack = some s → s.Held p I
  | _, [], _, _, h => by
    obtain rfl := Option.some.inj h
    trivial
  | _, ⟨_, .nonTail _ (.handle _)⟩ :: _, ⟨hw, ⟨_, _, _, hcall, hg, hreach⟩, hstack⟩, hesc, h =>
    held_of_enter hI hw hcall (.raised hg (.trans (Program.TailReaches.escapes hreach) hesc) hfr hat hvs)
      hstack h
  | _, ⟨_, .nonTail cont .caller⟩ :: _, ⟨_, ⟨_, _, _, hcall, hg, hreach⟩, hstack⟩, hesc, h =>
    held_throw hI hfr hat hvs hstack
      (.head (.inr ⟨cont, hcall.calls hg⟩) (.trans (Program.TailReaches.escapes hreach) hesc)) h

theorem Transfer.held_step (hI : Kept W p globals I) {fr : Frame} {stack : List Waiting} {t : Trace}
    {s : State} (hfr : I fr) (hstack : Stacked p I fr.func stack) {tr : Transfer} (hat : fr.At tr)
    (h : tr.step W p globals fr stack t = some s) : s.Held p I := by
  cases tr with
  | bug =>
    obtain rfl := Option.some.inj h
    trivial
  | call args func k =>
    simp only [step, Option.bind_eq_bind, Option.bind_eq_some_iff] at h
    obtain ⟨vs, hvs, f, hf, callee, hcallee, h⟩ := h
    have hI' := hI.activate (.call hfr hat hf hvs) hcallee
    have hfunc := Function.activate_func hcallee
    split at h
    · obtain rfl := Option.some.inj h
      -- what waited for the caller now waits for the callee
      refine ⟨hI', ?_⟩
      cases stack with
      | nil => trivial
      | cons w stack =>
        obtain ⟨hw, ⟨args', func', g, hcall, hg, hreach⟩, hstack⟩ := hstack
        exact ⟨hw, ⟨args', func', g, hcall, hg, hreach.tail (hfunc ▸ hat.calls hf)⟩, hstack⟩
    · obtain rfl := Option.some.inj h
      exact ⟨hI', hfr, ⟨args, func, f, hat, hf, hfunc ▸ .refl⟩, hstack⟩
  | case test cases default =>
    simp only [step, Option.bind_eq_bind, Option.bind_eq_some_iff] at h
    obtain ⟨v, hv, ⟨l, vs⟩, htarget, fr', hfr', h⟩ := h
    obtain rfl := Option.some.inj h
    exact ⟨hI.enter hfr hat (.case hv htarget) hfr', (Frame.enter_func hfr').symm ▸ hstack⟩
  | goto dst args =>
    simp only [step, Option.bind_eq_bind, Option.bind_eq_some_iff] at h
    obtain ⟨vs, hvs, fr', hfr', h⟩ := h
    obtain rfl := Option.some.inj h
    exact ⟨hI.enter hfr hat (.goto hvs) hfr', (Frame.enter_func hfr').symm ▸ hstack⟩
  | raise xs =>
    obtain ⟨vs, hvs, h⟩ := Option.bind_eq_some_iff.mp h
    exact State.held_throw hI hfr hat hvs hstack .refl h
  | ret xs =>
    obtain ⟨vs, hvs, h⟩ := Option.bind_eq_some_iff.mp h
    exact State.held_comeBack hI hfr hat hvs hstack h
  | runtime prim args l =>
    obtain ⟨vs, -, h⟩ := Option.bind_eq_some_iff.mp h
    split at h
    · obtain ⟨fr', hfr', h⟩ := Option.bind_eq_some_iff.mp h
      obtain rfl := Option.some.inj h
      exact ⟨hI.enter hfr hat .runtime hfr', (Frame.enter_func hfr').symm ▸ hstack⟩
    · obtain rfl := Option.some.inj h
      trivial

theorem State.held_step (hI : Kept W p globals I) {s s' : State} (hs : s.Held p I)
    (h : s.step W p globals = some s') : s'.Held p I := by
  cases s with
  | ended => cases h
  | running fr stack t =>
    obtain ⟨b, hb, h⟩ := Option.bind_eq_some_iff.mp h
    split at h
    · next hnone => exact Transfer.held_step hI hs.1 hs.2 ⟨b, hb, hnone, rfl⟩ h
    · next st hst =>
      split at h
      · next v t' heval =>
        obtain rfl := Option.some.inj h
        exact ⟨hI.advance hs.1 hb hst heval, hs.2⟩
      · obtain rfl := Option.some.inj h
        trivial
      · cases h

/-- **What activations keep holds in every state reached.** -/
theorem Program.Reaches.held (hI : Kept W p globals I) {s : State} (h : p.Reaches W globals s) :
    s.Held p I := by
  induction h with
  | init hinit =>
    obtain ⟨f, hf, h⟩ := Option.bind_eq_some_iff.mp hinit
    obtain ⟨fr, hfr, rfl⟩ := Option.map_eq_some_iff.mp h
    exact ⟨hI.activate (.main hf) hfr, trivial⟩
  | step _ hstep ih => exact State.held_step hI ih hstep

end Kept

end MLton.Ssa
