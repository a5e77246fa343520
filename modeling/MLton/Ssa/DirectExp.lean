import MLton.Ssa.Tree

/-!
# Ssa/DirectExp — direct-style expressions, and the block graph `linearize` makes of them

An expression is turned into blocks in one pass, from the inside of its continuation outwards.  A
continuation says what is to be done with the value of an expression: bind it and go on with code already
made, jump with it, or hand its name or its right-hand side to a function that makes the code.  Where the
value arrives from several places the continuation is reified: its code becomes a block of its own.
-/

namespace MLton.Ssa

mutual

/-- `DirectExp.t`.  The body of `detuple` and of `name` is a function of the names the code generator
picks; it is called once, so that names which it makes itself are as good as made beforehand. -/
inductive DirectExp where
  | bug
  | call (func : Func) (args : List DirectExp) (ty : Ty)
  | case (cases : DirectExp.Arms) (default : Option DirectExp) (test : DirectExp) (ty : Ty)
  | conApp (con : Con) (args : List DirectExp) (mode : Mode) (ty : Ty)
  | const (c : Const)
  | detuple (body : List Var → DirectExp) (length : ℕ) (tuple : DirectExp)
  | detupleBind (body : DirectExp) (components : List Var) (tuple : Var) (tupleTy : Ty)
  | handle (tried : DirectExp) (catch_ : Var × Ty) (handler : DirectExp) (ty : Ty)
  | lett (decs : List (Var × DirectExp)) (body : DirectExp)
  | name (e : DirectExp) (f : Var → DirectExp)
  | primApp (prim : Prim) (targs : List Ty) (mode : Option Mode) (args : List DirectExp) (ty : Ty)
  | profile (e : ProfileExp)
  | raise (e : DirectExp)
  | runtime (args : List DirectExp) (prim : Prim) (ty : Ty)
  | select (tuple : DirectExp) (offset : ℕ) (ty : Ty)
  | seq (e₁ e₂ : DirectExp)
  | tuple (exps : List DirectExp) (mode : Mode) (ty : Ty)
  | var (x : Var) (ty : Ty)

/-- `DirectExp.cases`. -/
inductive DirectExp.Arms where
  | con (cs : List (Con × List (Var × Ty) × DirectExp))
  | word (size : ℕ) (cs : List (ℕ × DirectExp))

end

namespace DirectExp

/-- Code under construction. -/
structure Res where
  statements : List Statement
  transfer : Transfer

/-- `Res.prefix`. -/
def Res.prefixWith (r : Res) (s : Statement) : Res := { r with statements := s :: r.statements }

/-- The blocks made so far, and the next unused name. -/
structure State where
  supply : Supply
  blocks : List Block

/-- Code generation; `Error.bug` has no result. -/
abbrev Gen := StateT State Option

/-- `Var.newNoname`. -/
def newVar : Gen Var := fun s =>
  let (x, supply) := Var.newNoname s.supply
  some (x, { s with supply })

/-- `Label.newNoname`. -/
def newName : Gen Label := fun s =>
  let (l, supply) := Label.newNoname s.supply
  some (l, { s with supply })

/-- `List.push (blocks, b)`. -/
def push (b : Block) : Gen Unit := fun s => some ((), { s with blocks := b :: s.blocks })

/-- `Error.bug`. -/
def errorBug {α : Type} : Gen α := fun _ => none

/-! ## Continuations -/

/-- `Cont.bind`. -/
structure Bind where
  arg : Var
  statements : List Statement
  transfer : Transfer

/-- `Cont.t`. -/
inductive Cont where
  | bind (b : Bind)
  | goto (l : Label)
  | prefixWith (k : Cont) (s : Statement)
  | receiveExp (f : Exp → Ty → Gen Res)
  | receiveVar (f : Var → Ty → Gen Res)
  | ret

namespace Cont

def sendBindExp (b : Bind) (ty : Ty) (e : Exp) : Res :=
  { statements := { var := some b.arg, ty, exp := e } :: b.statements, transfer := b.transfer }

def sendVar : Cont → Ty → Var → Gen Res
  | bind b, ty, x => pure (sendBindExp b ty (.var x))
  | goto dst, _, x => pure { statements := [], transfer := .goto dst [x] }
  | receiveExp f, ty, x => f (.var x) ty
  | receiveVar f, ty, x => f x ty
  | prefixWith k s, ty, x => do
    let r ← sendVar k ty x
    pure (r.prefixWith s)
  | ret, _, x => pure { statements := [], transfer := .ret [x] }

def toBind (k : Cont) (ty : Ty) : Gen Bind :=
  match k with
  | bind b => pure b
  | k => do
    let arg ← newVar
    let r ← k.sendVar ty arg
    pure { arg, statements := r.statements, transfer := r.transfer }

def sendExp (k : Cont) (ty : Ty) (e : Exp) : Gen Res :=
  match k with
  | receiveExp f => f e ty
  | k => do
    let b ← k.toBind ty
    pure (sendBindExp b ty e)

def toBlock (k : Cont) (ty : Ty) : Gen Block := do
  let b ← k.toBind ty
  let label ← newName
  pure { label, args := [(b.arg, ty)], statements := b.statements, transfer := b.transfer }

end Cont

/-- `selects`: bind the components of a tuple.  The list is in reverse. -/
def selects (tuple : Var) (ty : Ty) (components : List Var) : Gen (List Statement) :=
  match ty.deTupleOpt with
  | none => errorBug
  | some ts =>
    if ts.length ≤ components.length then
      pure ((components.zip ts).zipIdx.foldl (fun ss ((x, t), i) =>
        { var := some x, ty := t, exp := .select tuple i } :: ss) [])
    else errorBug

/-! ## Linearization -/

def newBlock (args : List (Var × Ty)) (r : Res) : Gen Label := do
  let label ← newName
  push { label, args, statements := r.statements, transfer := r.transfer }
  pure label

def reify (k : Cont) (ty : Ty) : Gen Label := do
  let b ← k.toBlock ty
  push b
  pure b.label

/-- The transfer of a raise: out of the function, or to the handler at hand. -/
def raiseTo (x : Var) : Handler → Gen Res
  | .caller => pure { statements := [], transfer := .raise [x] }
  | .dead => errorBug
  | .handle l => pure { statements := [], transfer := .goto l [x] }

/-- Fresh names for the components of a tuple of `n`, and the statements that bind them, in reverse. -/
def freshComponents (tuple : Var) (ty : Ty) : ℕ → Gen (List Statement × List Var)
  | 0 => pure ([], [])
  | 1 => pure ([], [tuple])
  | n => do
    let xs ← (List.replicate n ()).mapM fun _ => newVar
    let ss ← selects tuple ty xs
    pure (ss, xs)

/-- What `detuple` does with the right-hand side of its tuple; `loopBody` makes the code of the body. -/
def detupleExp (length : ℕ) (loopBody : List Var → Gen Res) (e : Exp) (ty : Ty) : Gen Res :=
  let doit (tuple : Var) : Gen Res := do
    let (ss, xs) ← freshComponents tuple ty length
    let r ← loopBody xs
    pure { statements := ss.reverse ++ r.statements, transfer := r.transfer }
  match e with
  | .tuple xs _ => loopBody xs
  | .var x => doit x
  | e => do
    let tuple ← newVar
    let r ← doit tuple
    pure (r.prefixWith { var := some tuple, ty, exp := e })

/-- The statements of a `detupleBind`, in reverse. -/
def detupleBinds (tuple : Var) (tupleTy : Ty) : List Var → Gen (List Statement)
  | [] => pure []
  | [x] => pure [{ var := some x, ty := tupleTy, exp := .var tuple }]
  | xs => selects tuple tupleTy xs

/-- The block a call of the runtime returns to: its formals, and the code that makes the value of them
and hands it on. -/
def runtimeReturn (ty : Ty) (k : Cont) : Gen Label :=
  match ty.deTupleOpt with
  | none => do
    let res ← newVar
    let r ← k.sendVar ty res
    newBlock [(res, ty)] r
  | some [] => do
    let r ← k.sendExp ty (.tuple [] .heap)
    newBlock [] r
  | some _ => errorBug

mutual

/-- `loop`: the code of an expression, under a handler and before a continuation. -/
def loop : DirectExp → Handler → Cont → Gen Res
  | bug, _, _ => pure { statements := [], transfer := .bug }
  | call func args ty, h, k => loops args h [] fun xs => do
    let cont ← reify k ty
    pure { statements := [], transfer := .call xs func (.nonTail cont h) }
  | case cases default test ty, h, k => do
    let l ← reify k ty
    loop test h (.receiveVar fun x _ => do
      let default ← loopDefault default h (.goto l)
      let cases ← loopArms cases h (.goto l)
      pure { statements := [], transfer := .case x cases default })
  | conApp con args mode ty, h, k => loops args h [] fun xs => k.sendExp ty (.conApp con xs mode)
  | const c, _, k => k.sendExp (.ofConst c) (.const c)
  | detuple body length e, h, k =>
    loop e h (.receiveExp (detupleExp length fun xs => loop (body xs) h k))
  | detupleBind body components t tupleTy, h, k => do
    let r ← loop body h k
    let ss ← detupleBinds t tupleTy components
    pure { statements := ss.reverse ++ r.statements, transfer := r.transfer }
  | handle tried catch_ handler ty, h, k => do
    let l ← reify k ty
    let hl ← newName
    let r ← loop handler h (.goto l)
    push { label := hl, args := [catch_], statements := r.statements, transfer := r.transfer }
    loop tried (.handle hl) (.goto l)
  | lett decs body, h, k => loopDecs decs h (loop body h k)
  | name e f, h, k => loop e h (.receiveVar fun x _ => loop (f x) h k)
  | primApp prim targs mode args ty, h, k =>
    loops args h [] fun xs => k.sendExp ty (.primApp prim targs mode xs)
  | profile e, _, k => k.sendExp .unit (.profile e)
  | raise e, h, _ => loop e h (.receiveVar fun x _ => raiseTo x h)
  | runtime args prim ty, h, k => loops args h [] fun xs => do
    let l ← reify k ty
    let ret ← runtimeReturn ty (.goto l)
    pure { statements := [], transfer := .runtime prim xs ret }
  | select e offset ty, h, k =>
    loop e h (.receiveVar fun x _ => k.sendExp ty (.select x offset))
  | seq e₁ e₂, h, k => loop e₁ h (.receiveVar fun _ _ => loop e₂ h k)
  | tuple exps mode ty, h, k => loops exps h [] fun xs => k.sendExp ty (.tuple xs mode)
  | var x ty, _, k => k.sendVar ty x

/-- `loops`: name the values of the expressions, left to right. -/
def loops : List DirectExp → Handler → List Var → (List Var → Gen Res) → Gen Res
  | [], _, ac, k => k ac.reverse
  | e :: es, h, ac, k => loop e h (.receiveVar fun x _ => loops es h (x :: ac) k)

/-- The declarations of a `let`, given the code of its body. -/
def loopDecs : List (Var × DirectExp) → Handler → Gen Res → Gen Res
  | [], _, body => body
  | (x, e) :: decs, h, body => do
    let r ← loopDecs decs h body
    loop e h (.bind { arg := x, statements := r.statements, transfer := r.transfer })

/-- The block of the default, if there is one. -/
def loopDefault : Option DirectExp → Handler → Cont → Gen (Option Label)
  | none, _, _ => pure none
  | some e, h, k => do
    let r ← loop e h k
    let l ← newBlock [] r
    pure (some l)

/-- The blocks of the arms of a case. -/
def loopArms : Arms → Handler → Cont → Gen Cases
  | .con cs, h, k => do
    let cs ← loopConArms cs h k
    pure (.con cs)
  | .word size cs, h, k => do
    let cs ← loopWordArms cs h k
    pure (.word size cs)

/-- The blocks of the arms of a case on constructors. -/
def loopConArms : List (Con × List (Var × Ty) × DirectExp) → Handler → Cont →
    Gen (List (Con × Label))
  | [], _, _ => pure []
  | (con, args, body) :: cs, h, k => do
    let r ← loop body h k
    let l ← newBlock args r
    let ls ← loopConArms cs h k
    pure ((con, l) :: ls)

/-- The blocks of the arms of a case on words. -/
def loopWordArms : List (ℕ × DirectExp) → Handler → Cont → Gen (List (ℕ × Label))
  | [], _, _ => pure []
  | (w, e) :: cs, h, k => do
    let r ← loop e h k
    let l ← newBlock [] r
    let ls ← loopWordArms cs h k
    pure ((w, l) :: ls)

end

/-- `linearize'`. -/
def linearize' (e : DirectExp) (h : Handler) (k : Cont) (supply : Supply) :
    Option ((Label × List Block) × Supply) := do
  let (l, s) ← (do let r ← loop e h k; newBlock [] r : Gen Label) { supply, blocks := [] }
  pure ((l, s.blocks), s.supply)

def linearize (e : DirectExp) (h : Handler) : Supply → Option ((Label × List Block) × Supply) :=
  linearize' e h .ret

def linearizeGoto (e : DirectExp) (h : Handler) (l : Label) :
    Supply → Option ((Label × List Block) × Supply) :=
  linearize' e h (.goto l)

end DirectExp

end MLton.Ssa
