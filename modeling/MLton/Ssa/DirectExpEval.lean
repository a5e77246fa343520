import Mathlib.Order.CompletePartialOrder
import MLton.Ssa.DirectExp
import MLton.Ssa.Semantics

/-!
# Ssa/DirectExpEval — evaluating direct-style expressions, and which of them are well formed

Evaluation goes left to right and is by recursion on the expression, over a lexical environment.  The
bodies of `name` and `detuple` are given variables that stand for the values: variables with no other
use.  Which ones is left open, so that an expression has as many outcomes as its bodies tell variables
apart.
-/

namespace MLton.Ssa

open MLton.Effects

/-- The variables may stand for the values in a body with binders `B`: some environment beyond `ρ` has
the values for them, and the body does not bind them. -/
def Env.Stands (ρ : Env) (B : Set Var) (xs : List Var) (vs : List Val) : Prop :=
  (∃ σ : Env, ρ.Sub σ ∧ σ.all xs = some vs) ∧ ∀ x ∈ xs, x ∉ B

namespace DirectExp

/-! ## Binders -/

mutual

/-- The variables an expression binds. -/
def binders : DirectExp → Set Var
  | bug => ∅
  | call _ args _ => bindersList args
  | case cases default test _ => test.binders ∪ (cases.binders ∪ bindersOption default)
  | conApp _ args _ _ => bindersList args
  | const _ => ∅
  | detuple body _ e => e.binders ∪ {x | ∃ xs, x ∈ (body xs).binders}
  | detupleBind body components _ _ => {x | x ∈ components} ∪ body.binders
  | handle tried catch_ handler _ => tried.binders ∪ ({catch_.1} ∪ handler.binders)
  | lett decs body => bindersDecs decs ∪ body.binders
  | name e f => e.binders ∪ {x | ∃ y, x ∈ (f y).binders}
  | primApp _ _ _ args _ => bindersList args
  | profile _ => ∅
  | raise e => e.binders
  | runtime args _ _ => bindersList args
  | select e _ _ => e.binders
  | seq e₁ e₂ => e₁.binders ∪ e₂.binders
  | tuple exps _ _ => bindersList exps
  | var _ _ => ∅

def Arms.binders : Arms → Set Var
  | .con cs => bindersConArms cs
  | .word _ cs => bindersWordArms cs

def bindersList : List DirectExp → Set Var
  | [] => ∅
  | e :: es => e.binders ∪ bindersList es

def bindersOption : Option DirectExp → Set Var
  | none => ∅
  | some e => e.binders

def bindersDecs : List (Var × DirectExp) → Set Var
  | [] => ∅
  | (x, e) :: decs => e.binders ∪ ({x} ∪ bindersDecs decs)

def bindersConArms : List (Con × List (Var × Ty) × DirectExp) → Set Var
  | [] => ∅
  | (_, args, e) :: cs => {x | x ∈ args.map Prod.fst} ∪ e.binders ∪ bindersConArms cs

def bindersWordArms : List (ℕ × DirectExp) → Set Var
  | [] => ∅
  | (_, e) :: cs => e.binders ∪ bindersWordArms cs

end

/-! ## Evaluation -/

/-- A step that goes wrong if there is nothing to go on with. -/
def ofOption {α : Type} : Option α → Effect Event Val α
  | some a => .stop (.value a)
  | none => .stop .wrong

/-- The value of a call of the runtime with the given results. -/
def runtimeValue (ty : Ty) : List Val → Option Val
  | [] => if ty.deTupleOpt.isSome then some .unit else none
  | [v] => if ty.deTupleOpt.isSome then none else some v
  | _ => none

mutual

/-- Evaluate an expression. -/
def eval (W : World) : DirectExp → Env → Effect Event Val Val
  | bug, _ => .stop .bug
  | call func args _, ρ => (evalList W args ρ).bind fun vs => .lift (W.callFunc func vs)
  | case cases default test _, ρ =>
    (test.eval W ρ).bind fun v => cases.eval W v ρ (evalOption W default ρ)
  | conApp con args _ _, ρ => (evalList W args ρ).bind fun vs => .stop (.value (.con con vs))
  | const c, _ => .stop (.value (.const c))
  | detuple body length e, ρ =>
    (e.eval W ρ).bind fun v => (ofOption (v.components length)).bind fun vs =>
      .choose {xs | ρ.Stands {x | ∃ ys, x ∈ (body ys).binders} xs vs}
        fun xs => (body xs).eval W (ρ.sets xs vs)
  | detupleBind body components t _, ρ =>
    (ofOption ((ρ t).bind (Val.components components.length))).bind fun vs =>
      body.eval W (ρ.sets components vs)
  | handle tried catch_ handler _, ρ =>
    (tried.eval W ρ).handle fun v => handler.eval W (ρ.set catch_.1 v)
  | lett decs body, ρ => evalDecs W decs ρ (body.eval W)
  | name e f, ρ =>
    (e.eval W ρ).bind fun v => .choose {x | ρ.Stands {x | ∃ y, x ∈ (f y).binders} [x] [v]}
      fun x => (f x).eval W (ρ.set x v)
  | primApp prim targs mode args _, ρ =>
    (evalList W args ρ).bind fun vs => .lift (W.primApp prim targs mode vs)
  | profile e, _ => .lift fun t => (.value .unit, t ++ [.profile e])
  | raise e, ρ => (e.eval W ρ).bind fun v => .stop (.raised v)
  | runtime args prim ty, ρ =>
    (evalList W args ρ).bind fun vs => (Effect.lift (W.runtimeCall prim vs)).bind fun rs =>
      ofOption (runtimeValue ty rs)
  | select e offset _, ρ => (e.eval W ρ).bind fun v => ofOption (v.component offset)
  | seq e₁ e₂, ρ => (e₁.eval W ρ).bind fun _ => e₂.eval W ρ
  | tuple exps _ _, ρ => (evalList W exps ρ).bind fun vs => .stop (.value (.tuple vs))
  | var x _, ρ => ofOption (ρ x)

/-- The arm that a value selects, or else the default. -/
def Arms.eval (W : World) (v : Val) (ρ : Env) (default : Effect Event Val Val) :
    Arms → Effect Event Val Val
  | .con cs => evalConArms W v ρ default cs
  | .word _ cs => evalWordArms W v ρ default cs

/-- Evaluate expressions, left to right. -/
def evalList (W : World) : List DirectExp → Env → Effect Event Val (List Val)
  | [], _ => .stop (.value [])
  | e :: es, ρ => (e.eval W ρ).bind fun v => (evalList W es ρ).bind fun vs =>
    .stop (.value (v :: vs))

def evalOption (W : World) : Option DirectExp → Env → Effect Event Val Val
  | none, _ => .stop .wrong
  | some e, ρ => e.eval W ρ

/-- Evaluate declarations one after the other, each in scope of the next. -/
def evalDecs (W : World) : List (Var × DirectExp) → Env → (Env → Effect Event Val Val) →
    Effect Event Val Val
  | [], ρ, body => body ρ
  | (x, e) :: decs, ρ, body => (e.eval W ρ).bind fun v => evalDecs W decs (ρ.set x v) body

def evalConArms (W : World) (v : Val) (ρ : Env) (default : Effect Event Val Val) :
    List (Con × List (Var × Ty) × DirectExp) → Effect Event Val Val
  | [] => default
  | (con, args, e) :: cs =>
    match v with
    | .con con' vs =>
      if con = con' then
        if args.length = vs.length then e.eval W (ρ.sets (args.map Prod.fst) vs) else .stop .wrong
      else evalConArms W v ρ default cs
    | _ => .stop .wrong

def evalWordArms (W : World) (v : Val) (ρ : Env) (default : Effect Event Val Val) :
    List (ℕ × DirectExp) → Effect Event Val Val
  | [] => default
  | (w, e) :: cs =>
    match v with
    | .const (.word _ w') => if w = w' then e.eval W ρ else evalWordArms W v ρ default cs
    | _ => .stop .wrong

end

/-! ## Well-formed expressions -/

/-- The types at which an expression hands on its value. -/
def sends : DirectExp → Set Ty
  | bug => ∅
  | call _ _ ty => {ty}
  | case _ _ _ ty => {ty}
  | conApp _ _ _ ty => {ty}
  | const c => {.ofConst c}
  | detuple body _ _ => {ty | ∃ xs, ty ∈ (body xs).sends}
  | detupleBind body _ _ _ => body.sends
  | handle _ _ _ ty => {ty}
  | lett _ body => body.sends
  | name _ f => {ty | ∃ x, ty ∈ (f x).sends}
  | primApp _ _ _ _ ty => {ty}
  | profile _ => {.unit}
  | raise _ => ∅
  | runtime _ _ ty => {ty}
  | select _ _ ty => {ty}
  | seq _ e₂ => e₂.sends
  | tuple _ _ ty => {ty}
  | var _ ty => {ty}

end DirectExp

/-- The number of components of a type; a type of no tuples has one. -/
def Ty.HasComponents (ty : Ty) (n : ℕ) : Prop :=
  match ty.deTupleOpt with
  | some ts => ts.length = n ∧ n ≠ 1
  | none => n = 1

theorem Ty.HasComponents.ne_one {ty : Ty} {n : ℕ} (h : ty.HasComponents n)
    (hty : ty.deTupleOpt.isSome) : n ≠ 1 := by
  obtain ⟨ts, hts⟩ := Option.isSome_iff_exists.mp hty
  simp only [HasComponents, hts] at h
  exact h.2

namespace DirectExp

mutual

/-- No name is bound again while it may still be used, and lengths are as the types say. -/
def WellFormed : DirectExp → Prop
  | bug => True
  | call _ args _ => WellFormedList args
  | case cases default test _ => test.WellFormed ∧ cases.WellFormed ∧ WellFormedOption default ∧
      Disjoint test.binders (cases.binders ∪ bindersOption default)
  | conApp _ args _ _ => WellFormedList args
  | const _ => True
  | detuple body length e => e.WellFormed ∧ (∀ xs, (body xs).WellFormed) ∧
      Disjoint e.binders {x | ∃ xs, x ∈ (body xs).binders} ∧ ∀ ty ∈ e.sends, ty.HasComponents length
  | detupleBind body components _ tupleTy => body.WellFormed ∧
      Disjoint {x | x ∈ components} body.binders ∧
      (2 ≤ components.length → tupleTy.HasComponents components.length)
  | handle tried catch_ handler _ =>
    tried.WellFormed ∧ handler.WellFormed ∧ catch_.1 ∉ handler.binders
  | lett decs body => WellFormedDecs decs ∧ body.WellFormed ∧
      Disjoint (bindersDecs decs) body.binders
  | name e f => e.WellFormed ∧ (∀ x, (f x).WellFormed) ∧
      Disjoint e.binders {x | ∃ y, x ∈ (f y).binders}
  | primApp _ _ _ args _ => WellFormedList args
  | profile _ => True
  | raise e => e.WellFormed
  | runtime args _ ty => WellFormedList args ∧ ∀ ts, ty.deTupleOpt = some ts → ts = []
  | select e _ _ => e.WellFormed
  | seq e₁ e₂ => e₁.WellFormed ∧ e₂.WellFormed ∧ Disjoint e₁.binders e₂.binders
  | tuple exps _ ty => WellFormedList exps ∧ ty.deTupleOpt.isSome = true
  | var _ _ => True

def Arms.WellFormed : Arms → Prop
  | .con cs => WellFormedConArms cs
  | .word _ cs => WellFormedWordArms cs

def WellFormedList : List DirectExp → Prop
  | [] => True
  | e :: es => e.WellFormed ∧ WellFormedList es ∧ Disjoint e.binders (bindersList es)

def WellFormedOption : Option DirectExp → Prop
  | none => True
  | some e => e.WellFormed

def WellFormedDecs : List (Var × DirectExp) → Prop
  | [] => True
  | (x, e) :: decs => e.WellFormed ∧ WellFormedDecs decs ∧ x ∉ bindersDecs decs

def WellFormedConArms : List (Con × List (Var × Ty) × DirectExp) → Prop
  | [] => True
  | (_, args, e) :: cs => e.WellFormed ∧ WellFormedConArms cs ∧
      Disjoint {x | x ∈ args.map Prod.fst} e.binders

def WellFormedWordArms : List (ℕ × DirectExp) → Prop
  | [] => True
  | (_, e) :: cs => e.WellFormed ∧ WellFormedWordArms cs

end

end DirectExp

end MLton.Ssa
