import Mathlib.Algebra.Order.Group.Int
import Mathlib.Algebra.Ring.Int.Defs
import MLton.Ssa.OpenRegions

/-!
# Ssa/RegionMachine — a program run with a region-depth counter

Control, calls and exceptions of a whole program, with the values left out: a case may take any of its
arms.  A `Region_push` adds one to the counter and a `Region_pop` takes one off.  Each activation
remembers the depth it was entered at, which no step reads.
-/

namespace MLton.Ssa

/-- The block a label names in a function of the program. -/
def Program.block? (p : Program) (g : Func) (l : Label) : Option Block :=
  (p.function? g).bind (·.block? l)

/-- What a statement does to the region depth. -/
def Statement.regionDelta (s : Statement) : ℤ :=
  if s.isPush then 1 else if s.isPop then -1 else 0

/-- What a list of statements does to the region depth. -/
def regionDelta (ss : List Statement) : ℤ := (ss.map Statement.regionDelta).sum

@[simp] theorem regionDelta_nil : regionDelta [] = 0 := rfl

@[simp] theorem regionDelta_cons (s : Statement) (ss : List Statement) :
    regionDelta (s :: ss) = s.regionDelta + regionDelta ss := by
  simp [regionDelta]

@[simp] theorem regionDelta_append (ss ts : List Statement) :
    regionDelta (ss ++ ts) = regionDelta ss + regionDelta ts := by
  simp [regionDelta]

namespace RegionMachine

/-- An activation: its function, the block it is in, and the depth it was entered at. -/
structure Frame where
  func : Func
  label : Label
  entry : ℤ

/-- The top activation runs the statements left of its block, or an exception reaches it. -/
inductive Phase where
  | run (rest : List Statement)
  | raised

/-- The region depth, the activations, innermost first, and the phase. -/
structure State where
  depth : ℤ
  frames : List Frame
  phase : Phase

/-- What a step does to the control of the program: it runs a statement, enters a function, goes from
block to block within an activation, lets an exception reach the call an activation waits at, if there
is one, or ends the program. -/
inductive Move where
  | stmt
  | enter (g : Func)
  | edge (g : Func) (l l' : Label)
  | raise (site : Option (Func × Label))
  | finish

/-- The transfer goes to a block of its own function. -/
def isJump : Transfer → Bool
  | .case _ _ _ => true
  | .goto _ _ => true
  | .runtime _ _ _ => true
  | _ => false

/-- The call the innermost activation waits at. -/
def site (frs : List Frame) : Option (Func × Label) := frs.head?.map fun fr => (fr.func, fr.label)

variable (p : Program)

/-- One step. -/
inductive Step : State → Move → State → Prop where
  | stmt {d : ℤ} {frs : List Frame} {s : Statement} {ss : List Statement} :
      Step ⟨d, frs, .run (s :: ss)⟩ .stmt ⟨d + s.regionDelta, frs, .run ss⟩
  | jump {d : ℤ} {fr : Frame} {frs : List Frame} {b b' : Block} {l' : Label} :
      p.block? fr.func fr.label = some b → isJump b.transfer = true → l' ∈ b.transfer.labels →
      p.block? fr.func l' = some b' →
      Step ⟨d, fr :: frs, .run []⟩ (.edge fr.func fr.label l')
        ⟨d, { fr with label := l' } :: frs, .run b'.statements⟩
  | call {d : ℤ} {fr : Frame} {frs : List Frame} {b b' : Block} {args : List Var} {g : Func}
      {r : Return} {f : Function} :
      p.block? fr.func fr.label = some b → b.transfer = .call args g r → r ≠ .tail →
      p.function? g = some f → f.block? f.start = some b' →
      Step ⟨d, fr :: frs, .run []⟩ (.enter g)
        ⟨d, ⟨g, f.start, d⟩ :: fr :: frs, .run b'.statements⟩
  | tailCall {d : ℤ} {fr : Frame} {frs : List Frame} {b b' : Block} {args : List Var} {g : Func}
      {f : Function} :
      p.block? fr.func fr.label = some b → b.transfer = .call args g .tail →
      p.function? g = some f → f.block? f.start = some b' →
      Step ⟨d, fr :: frs, .run []⟩ (.enter g) ⟨d, ⟨g, f.start, d⟩ :: frs, .run b'.statements⟩
  | ret {d : ℤ} {fr fr' : Frame} {frs : List Frame} {b c e : Block} {xs args : List Var} {g : Func}
      {cont : Label} {handler : Handler} :
      p.block? fr.func fr.label = some b → b.transfer = .ret xs →
      p.block? fr'.func fr'.label = some e → e.transfer = .call args g (.nonTail cont handler) →
      p.block? fr'.func cont = some c →
      Step ⟨d, fr :: fr' :: frs, .run []⟩ (.edge fr'.func fr'.label cont)
        ⟨d, { fr' with label := cont } :: frs, .run c.statements⟩
  | finish {d : ℤ} {fr : Frame} {b : Block} {xs : List Var} :
      p.block? fr.func fr.label = some b → b.transfer = .ret xs →
      Step ⟨d, [fr], .run []⟩ .finish ⟨d, [], .run []⟩
  | raise {d : ℤ} {fr : Frame} {frs : List Frame} {b : Block} {xs : List Var} :
      p.block? fr.func fr.label = some b → b.transfer = .raise xs →
      Step ⟨d, fr :: frs, .run []⟩ (.raise (site frs)) ⟨d, frs, .raised⟩
  | handle {d : ℤ} {fr : Frame} {frs : List Frame} {b c : Block} {args : List Var} {g : Func}
      {cont l' : Label} :
      p.block? fr.func fr.label = some b → b.transfer = .call args g (.nonTail cont (.handle l')) →
      p.block? fr.func l' = some c →
      Step ⟨d, fr :: frs, .raised⟩ (.edge fr.func fr.label l')
        ⟨d, { fr with label := l' } :: frs, .run c.statements⟩
  | propagate {d : ℤ} {fr : Frame} {frs : List Frame} {b : Block} {args : List Var} {g : Func}
      {cont : Label} :
      p.block? fr.func fr.label = some b → b.transfer = .call args g (.nonTail cont .caller) →
      Step ⟨d, fr :: frs, .raised⟩ (.raise (site frs)) ⟨d, frs, .raised⟩

/-- A run from the entry of `g` at depth `d`, with its moves in order. -/
inductive Run (g : Func) (d : ℤ) : List Move → State → Prop where
  | start {f : Function} {b : Block} : p.function? g = some f → f.block? f.start = some b →
      Run g d [.enter g] ⟨d, [⟨g, f.start, d⟩], .run b.statements⟩
  | snoc {ms : List Move} {m : Move} {σ σ' : State} : Run g d ms σ → Step p σ m σ' →
      Run g d (ms ++ [m]) σ'

/-- The next step leaves the activation: it returns, raises or makes a tail call, or an exception of
a callee passes through it. -/
inductive Leaving : State → Frame → Prop where
  | ret {d : ℤ} {fr : Frame} {frs : List Frame} {b : Block} {xs : List Var} :
      p.block? fr.func fr.label = some b → b.transfer = .ret xs →
      Leaving ⟨d, fr :: frs, .run []⟩ fr
  | raise {d : ℤ} {fr : Frame} {frs : List Frame} {b : Block} {xs : List Var} :
      p.block? fr.func fr.label = some b → b.transfer = .raise xs →
      Leaving ⟨d, fr :: frs, .run []⟩ fr
  | tailCall {d : ℤ} {fr : Frame} {frs : List Frame} {b : Block} {args : List Var} {g : Func} :
      p.block? fr.func fr.label = some b → b.transfer = .call args g .tail →
      Leaving ⟨d, fr :: frs, .run []⟩ fr
  | propagate {d : ℤ} {fr : Frame} {frs : List Frame} {b : Block} {args : List Var} {g : Func}
      {cont : Label} :
      p.block? fr.func fr.label = some b → b.transfer = .call args g (.nonTail cont .caller) →
      Leaving ⟨d, fr :: frs, .raised⟩ fr

/-- **Balance**: the depth is nowhere below that at which an activation was entered, and is the same
again where the activation is left. -/
structure Balanced (σ : State) : Prop where
  above : ∀ fr ∈ σ.frames, fr.entry ≤ σ.depth
  leaving : ∀ fr, Leaving p σ fr → σ.depth = fr.entry

end RegionMachine

end MLton.Ssa
