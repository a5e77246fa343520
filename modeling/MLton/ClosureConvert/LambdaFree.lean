import MLton.ClosureConvert.Sxml
import Mathlib.Order.Nat

/-!
# ClosureConvert/LambdaFree — the free variables of every function

One pass over the program.  Each lambda is a scope, and so is each group of functions that are declared
together.  A variable has the scope that saw it last and its status there: a scope that sees it for the
first time saves both, starts with `unseen`, and puts them back at its end.  What is free in a scope is
then seen in the one around it.

A reference is a number, drawn from `refs`; the contents of a scope's two references are in `Scope`.
-/

namespace MLton.LambdaFree

open Sxml

/-- `Status.t`. -/
inductive Status where
  | unseen
  | free
  | bound
deriving DecidableEq, Repr

/-- `varInfo`: the reference to the free variables of the scope that saw the variable last, and the
status there. -/
structure VarInfo where
  frees : ℕ
  status : Status
deriving DecidableEq, Repr

/-- `lambdaInfo`. -/
structure LambdaInfo where
  frees : List Var
  recs : List Var
deriving DecidableEq, Repr

/-- The references of the program. -/
structure State where
  varInfo : Var → VarInfo
  lambdaInfo : Var → LambdaInfo
  refs : ℕ

/-- A scope: the reference that identifies it and what its references hold. -/
structure Scope where
  id : ℕ
  frees : List Var
  all : List (Var × VarInfo)

/-- The innermost scope and the references outside of it. -/
structure Config where
  scope : Scope
  state : State

/-- `setFree`. -/
def setFree (l : Lambda) (xs : List Var) (st : State) : State :=
  { st with lambdaInfo := Function.update st.lambdaInfo l.arg { st.lambdaInfo l.arg with frees := xs } }

/-- `setRec`. -/
def setRec (l : Lambda) (xs : List Var) (st : State) : State :=
  { st with lambdaInfo := Function.update st.lambdaInfo l.arg { st.lambdaInfo l.arg with recs := xs } }

/-- `statusRef`: what it does to a variable that the scope has not seen. -/
def statusRef (x : Var) (c : Config) : Config :=
  let info := c.state.varInfo x
  if c.scope.id = info.frees then c
  else
    { scope := { c.scope with all := (x, info) :: c.scope.all }
      state := { c.state with varInfo := Function.update c.state.varInfo x ⟨c.scope.id, .unseen⟩ } }

/-- `get`. -/
def get (x : Var) (c : Config) : Status × Config :=
  let c := statusRef x c
  ((c.state.varInfo x).status, c)

/-- `set`. -/
def set (x : Var) (s : Status) (c : Config) : Config :=
  let c := statusRef x c
  { c with state := { c.state with
      varInfo := Function.update c.state.varInfo x { c.state.varInfo x with status := s } } }

/-- `bind`. -/
def bind (x : Var) (c : Config) : Config := set x .bound c

/-- `var`, which is also `varExp`. -/
def var (x : Var) (c : Config) : Config :=
  match get x c with
  | (.unseen, c) =>
    let c := set x .free c
    { c with scope := { c.scope with frees := x :: c.scope.frees } }
  | (_, c) => c

/-- `vars`, which is also `varExps` and `varExpOpt`. -/
def vars (xs : List Var) (c : Config) : Config := xs.foldl (fun c x => var x c) c

/-- Put back what was saved. -/
def restore (all : List (Var × VarInfo)) (info : Var → VarInfo) : Var → VarInfo :=
  all.foldl (fun info (x, v) => Function.update info x v) info

/-- `newScope`. -/
def newScope (th : Config → Config) (st : State) : List Var × State :=
  let c := th ⟨⟨st.refs, [], []⟩, { st with refs := st.refs + 1 }⟩
  (c.scope.frees, { c.state with varInfo := restore c.scope.all c.state.varInfo })

/-- `Vector.keepAll`, for what keeps the group's own functions and sees the others. -/
def keepRecs (isBound : Var → Bool) : List Var → Config → List Var × Config
  | [], c => ([], c)
  | x :: xs, c =>
    if isBound x then
      let (ys, c) := keepRecs isBound xs c
      (x :: ys, c)
    else keepRecs isBound xs (var x c)

/-- Set the free variables of each function of a group and bind its name. -/
def setFrees (xs : List Var) : List FunDec → Config → Config
  | [], c => c
  | .mk x l :: ds, c => setFrees xs ds (bind x { c with state := setFree l xs c.state })

mutual

/-- `exp`. -/
def exp : Exp → Config → Config
  | .mk ds result, c => var result (decs ds c)

def decs : List Dec → Config → Config
  | [], c => c
  | d :: ds, c => decs ds (dec d c)

def dec : Dec → Config → Config
  | .exception, c => c
  | .monoVal x e, c => bind x (primExp e c)
  | .polyVal x e, c => bind x (exp e c)
  | .funs ds, c =>
    let isBound x := decide (x ∈ ds.map FunDec.var)
    let (xs, st) := newScope (fun c => funs isBound ds c) c.state
    vars xs (setFrees xs ds { c with state := st })

/-- The functions of a group, in the group's scope. -/
def funs (isBound : Var → Bool) : List FunDec → Config → Config
  | [], c => c
  | d :: ds, c => funs isBound ds (funDec isBound d c)

def funDec (isBound : Var → Bool) : FunDec → Config → Config
  | .mk _ l, c =>
    let (xs, st) := lambda l c.state
    let (recs, c) := keepRecs isBound xs { c with state := st }
    { c with state := setRec l recs c.state }

/-- `primExp`. -/
def primExp : PrimExp → Config → Config
  | .app func arg, c => var arg (var func c)
  | .case test cs default, c => cases cs (defaultExp default (var test c))
  | .conApp arg, c => vars arg.toList c
  | .const, c => c
  | .handle tryy x handler, c => exp handler (bind x (exp tryy c))
  | .lambda l, c =>
    let (xs, st) := lambda l c.state
    vars xs { c with state := setFree l xs st }
  | .primApp args, c => vars args c
  | .profile, c => c
  | .raise exn, c => var exn c
  | .select tuple, c => var tuple c
  | .tuple xs, c => vars xs c
  | .var x, c => var x c

def defaultExp : Option Exp → Config → Config
  | none, c => c
  | some e, c => exp e c

def cases : List Case → Config → Config
  | [], c => c
  | cs :: css, c => cases css (case cs c)

def case : Case → Config → Config
  | .mk arg e, c => exp e (arg.toList.foldl (fun c x => bind x c) c)

/-- `lambda`. -/
def lambda : Lambda → State → List Var × State
  | .mk arg body, st => newScope (fun c => exp body (bind arg c)) st

end

/-- `lambdaFree`, which raises for a program with free variables. -/
def lambdaFree (body : Exp) (st : State) : Option State :=
  let (frees, st) := newScope (exp body) st
  if frees = [] then some st else none

end MLton.LambdaFree

/-!
## What a scope saves is put back

Whatever the traversal does to a variable's status in a scope, putting back what the scope has saved gives
the statuses at its start: a variable is saved when the scope sees it first, and only what is saved
changes.  No scoping of the program is needed for this.
-/

namespace MLton.LambdaFree

open Sxml

/-- No reference is used that was not drawn. -/
structure State.Known (st : State) : Prop where
  frees_lt : ∀ x, (st.varInfo x).frees < st.refs

/-- The scope is one that was drawn, and a variable that has seen it is saved. -/
structure Config.Known (c : Config) : Prop where
  state : c.state.Known
  id_lt : c.scope.id < c.state.refs
  saved : ∀ x, (c.state.varInfo x).frees = c.scope.id → x ∈ c.scope.all.map Prod.fst

/-- What the scope puts back. -/
def Config.restored (c : Config) : Var → VarInfo := restore c.scope.all c.state.varInfo

/-- **A step within a scope** changes nothing that the scope does not put back. -/
structure Tidy (c c' : Config) : Prop where
  known : c'.Known
  id : c'.scope.id = c.scope.id
  refs_le : c.state.refs ≤ c'.state.refs
  restored : c'.restored = c.restored

variable {c c' c'' : Config} {st : State} {x : Var}

namespace Tidy

theorem refl (h : c.Known) : Tidy c c := ⟨h, rfl, le_rfl, rfl⟩

theorem trans (h : Tidy c c') (h' : Tidy c' c'') : Tidy c c'' :=
  ⟨h'.known, h'.id.trans h.id, h.refs_le.trans h'.refs_le, h'.restored.trans h.restored⟩

end Tidy

/-! ## Seeing a variable -/

theorem restore_cons {all : List (Var × VarInfo)} {info : Var → VarInfo} {v : VarInfo} :
    restore ((x, v) :: all) info = restore all (Function.update info x v) := rfl

/-- What a saved variable has does not matter. -/
theorem restore_update : ∀ {all : List (Var × VarInfo)} {info : Var → VarInfo} {v : VarInfo},
    x ∈ all.map Prod.fst → restore all (Function.update info x v) = restore all info
  | (y, w) :: all, info, v, h => by
      rw [restore_cons, restore_cons]
      by_cases hxy : y = x
      · subst hxy
        rw [Function.update_idem]
      · rw [Function.update_comm (Ne.symm hxy)]
        exact restore_update ((List.mem_cons.mp h).resolve_left (Ne.symm hxy))

theorem statusRef_of_eq (h : c.scope.id = (c.state.varInfo x).frees) : statusRef x c = c := if_pos h

/-- A variable that the scope has not seen is saved. -/
theorem statusRef_of_ne (h : c.scope.id ≠ (c.state.varInfo x).frees) :
    statusRef x c =
      ⟨⟨c.scope.id, c.scope.frees, (x, c.state.varInfo x) :: c.scope.all⟩,
        ⟨Function.update c.state.varInfo x ⟨c.scope.id, .unseen⟩, c.state.lambdaInfo, c.state.refs⟩⟩ :=
  if_neg h

/-- The scope that has seen a variable. -/
@[simp] theorem frees_statusRef : ((statusRef x c).state.varInfo x).frees = c.scope.id := by
  by_cases h : c.scope.id = (c.state.varInfo x).frees
  · rw [statusRef_of_eq h, h]
  · rw [statusRef_of_ne h]
    dsimp only
    rw [Function.update_self]

theorem tidy_statusRef (h : c.Known) : Tidy c (statusRef x c) := by
  by_cases hx : c.scope.id = (c.state.varInfo x).frees
  · rw [statusRef_of_eq hx]
    exact .refl h
  · rw [statusRef_of_ne hx]
    refine ⟨⟨⟨fun y => ?_⟩, h.id_lt, fun y hy => ?_⟩, rfl, le_rfl, ?_⟩
    · dsimp only
      by_cases hy : y = x
      · rw [hy, Function.update_self]
        exact h.id_lt
      · rw [Function.update_of_ne hy]
        exact h.state.frees_lt y
    · dsimp only at hy ⊢
      by_cases hxy : y = x
      · rw [hxy]
        exact List.mem_cons_self
      · rw [Function.update_of_ne hxy] at hy
        exact List.mem_cons_of_mem _ (h.saved y hy)
    · rw [Config.restored, restore_cons, Function.update_idem, Function.update_eq_self]
      rfl

/-- A variable that the scope has seen gets a status. -/
theorem tidy_update (h : c.Known) (hx : (c.state.varInfo x).frees = c.scope.id) {s : Status} :
    Tidy c { c with state := { c.state with
      varInfo := Function.update c.state.varInfo x { c.state.varInfo x with status := s } } } := by
  have hfrees : ∀ y, (Function.update c.state.varInfo x { c.state.varInfo x with status := s } y).frees =
      (c.state.varInfo y).frees := by
    intro y
    by_cases hy : y = x
    · rw [hy, Function.update_self]
    · rw [Function.update_of_ne hy]
  refine ⟨⟨⟨fun y => ?_⟩, h.id_lt, fun y hy => h.saved y ((hfrees y).symm.trans hy)⟩, rfl, le_rfl, ?_⟩
  · exact (hfrees y).trans_lt (h.state.frees_lt y)
  · exact restore_update (h.saved x hx)

theorem tidy_set (h : c.Known) {s : Status} : Tidy c (set x s c) := by
  have href := tidy_statusRef (x := x) h
  exact href.trans (tidy_update href.known (frees_statusRef.trans href.id.symm))

theorem tidy_bind (h : c.Known) : Tidy c (bind x c) := tidy_set h

/-- The list of free variables is the scope's own. -/
theorem tidy_frees (h : c.Known) {xs : List Var} :
    Tidy c { c with scope := { c.scope with frees := xs } } :=
  ⟨⟨h.state, h.id_lt, h.saved⟩, rfl, le_rfl, rfl⟩

theorem tidy_var (h : c.Known) : Tidy c (var x c) := by
  have href := tidy_statusRef (x := x) h
  rw [var, get]
  split
  next c' heq =>
    obtain rfl : statusRef x c = c' := congrArg Prod.snd heq
    have hset := tidy_set (x := x) (s := .free) href.known
    exact (href.trans hset).trans (tidy_frees hset.known)
  next s c' _ heq =>
    obtain rfl : statusRef x c = c' := congrArg Prod.snd heq
    exact href

theorem tidy_vars : ∀ {xs : List Var} {c : Config}, c.Known → Tidy c (vars xs c)
  | [], _, h => .refl h
  | _ :: _, _, h =>
    have hx := tidy_var h
    hx.trans (tidy_vars hx.known)

theorem tidy_binds : ∀ {xs : List Var} {c : Config}, c.Known →
    Tidy c (xs.foldl (fun c x => bind x c) c)
  | [], _, h => .refl h
  | _ :: _, _, h =>
    have hx := tidy_bind h
    hx.trans (tidy_binds hx.known)

/-! ## Scopes -/

/-- A step that leaves the variables to the scopes. -/
theorem tidy_state (h : c.Known) (hinfo : st.varInfo = c.state.varInfo) (hrefs : c.state.refs ≤ st.refs) :
    Tidy c { c with state := st } := by
  refine ⟨⟨⟨fun y => ?_⟩, h.id_lt.trans_le hrefs, fun y hy => ?_⟩, rfl, hrefs, ?_⟩
  · rw [hinfo]
    exact (h.state.frees_lt y).trans_le hrefs
  · exact h.saved y (hinfo ▸ hy)
  · exact congrArg (restore c.scope.all) hinfo

/-- The state is as it was for the variables. -/
structure Restored (st st' : State) : Prop where
  varInfo : st'.varInfo = st.varInfo
  refs_le : st.refs ≤ st'.refs

/-- The configuration that a new scope starts with. -/
def State.enter (st : State) : Config := ⟨⟨st.refs, [], []⟩, { st with refs := st.refs + 1 }⟩

theorem known_enter (h : st.Known) : st.enter.Known :=
  ⟨⟨fun x => (h.frees_lt x).trans (Nat.lt_succ_self _)⟩, Nat.lt_succ_self _,
    fun x hx => absurd hx (h.frees_lt x).ne⟩

/-- **On leaving a scope every variable has its status and its scope back.** -/
theorem restored_newScope (th : Config → Config) (hth : Tidy st.enter (th st.enter)) :
    Restored st (newScope th st).2 :=
  ⟨hth.restored, (Nat.le_succ _).trans hth.refs_le⟩

theorem tidy_restored (h : c.Known) (hst : Restored c.state st) : Tidy c { c with state := st } :=
  tidy_state h hst.varInfo hst.refs_le

theorem tidy_keepRecs {isBound : Var → Bool} : ∀ {xs : List Var} {c : Config}, c.Known →
    Tidy c (keepRecs isBound xs c).2
  | [], _, h => .refl h
  | x :: xs, c, h => by
      rw [keepRecs]
      split
      · exact tidy_keepRecs h
      · have hx := tidy_var (x := x) h
        exact hx.trans (tidy_keepRecs hx.known)

theorem tidy_setFrees {xs : List Var} : ∀ {ds : List FunDec} {c : Config}, c.Known →
    Tidy c (setFrees xs ds c)
  | [], _, h => .refl h
  | .mk x l :: ds, c, h => by
      have hset : Tidy c { c with state := setFree l xs c.state } := tidy_state h rfl le_rfl
      have hbind := tidy_bind (x := x) hset.known
      exact (hset.trans hbind).trans (tidy_setFrees hbind.known)

mutual

theorem tidy_exp : ∀ (e : Exp) {c : Config}, c.Known → Tidy c (exp e c)
  | .mk ds _, _, h =>
    have hds := tidy_decs ds h
    hds.trans (tidy_var hds.known)

theorem tidy_decs : ∀ (ds : List Dec) {c : Config}, c.Known → Tidy c (decs ds c)
  | [], _, h => .refl h
  | d :: ds, _, h =>
    have hd := tidy_dec d h
    hd.trans (tidy_decs ds hd.known)

theorem tidy_dec : ∀ (d : Dec) {c : Config}, c.Known → Tidy c (dec d c)
  | .exception, _, h => .refl h
  | .monoVal _ e, _, h =>
    have he := tidy_primExp e h
    he.trans (tidy_bind he.known)
  | .polyVal _ e, _, h =>
    have he := tidy_exp e h
    he.trans (tidy_bind he.known)
  | .funs ds, _, h =>
    have hst := restored_newScope (funs (fun x => decide (x ∈ ds.map FunDec.var)) ds)
      (tidy_funs _ ds (known_enter h.state))
    have hc := tidy_restored h hst
    have hset := tidy_setFrees hc.known
    (hc.trans hset).trans (tidy_vars hset.known)

theorem tidy_funs (isBound : Var → Bool) : ∀ (ds : List FunDec) {c : Config}, c.Known →
    Tidy c (funs isBound ds c)
  | [], _, h => .refl h
  | d :: ds, _, h =>
    have hd := tidy_funDec isBound d h
    hd.trans (tidy_funs isBound ds hd.known)

theorem tidy_funDec (isBound : Var → Bool) : ∀ (d : FunDec) {c : Config}, c.Known →
    Tidy c (funDec isBound d c)
  | .mk _ l, _, h =>
    have hc := tidy_restored h (restored_lambda l h.state)
    have hkeep := tidy_keepRecs hc.known
    (hc.trans hkeep).trans (tidy_state hkeep.known rfl le_rfl)

theorem tidy_primExp : ∀ (e : PrimExp) {c : Config}, c.Known → Tidy c (primExp e c)
  | .app _ _, _, h =>
    have hfunc := tidy_var h
    hfunc.trans (tidy_var hfunc.known)
  | .case _ cs default, _, h =>
    have htest := tidy_var h
    have hdefault := tidy_defaultExp default htest.known
    (htest.trans hdefault).trans (tidy_cases cs hdefault.known)
  | .conApp _, _, h => tidy_vars h
  | .const, _, h => .refl h
  | .handle tryy _ handler, _, h =>
    have htry := tidy_exp tryy h
    have hbind := tidy_bind htry.known
    (htry.trans hbind).trans (tidy_exp handler hbind.known)
  | .lambda l, c, h =>
    have hst := restored_lambda l h.state
    have hc : Tidy c { c with state := setFree l (lambda l c.state).1 (lambda l c.state).2 } :=
      tidy_state h hst.varInfo hst.refs_le
    hc.trans (tidy_vars hc.known)
  | .primApp _, _, h => tidy_vars h
  | .profile, _, h => .refl h
  | .raise _, _, h => tidy_var h
  | .select _, _, h => tidy_var h
  | .tuple _, _, h => tidy_vars h
  | .var _, _, h => tidy_var h

theorem tidy_defaultExp : ∀ (e : Option Exp) {c : Config}, c.Known → Tidy c (defaultExp e c)
  | none, _, h => .refl h
  | some e, _, h => tidy_exp e h

theorem tidy_cases : ∀ (cs : List Case) {c : Config}, c.Known → Tidy c (cases cs c)
  | [], _, h => .refl h
  | cs :: css, _, h =>
    have hcs := tidy_case cs h
    hcs.trans (tidy_cases css hcs.known)

theorem tidy_case : ∀ (cs : Case) {c : Config}, c.Known → Tidy c (case cs c)
  | .mk _ e, _, h =>
    have hbind := tidy_binds h
    hbind.trans (tidy_exp e hbind.known)

theorem restored_lambda : ∀ (l : Lambda) {st : State}, st.Known → Restored st (lambda l st).2
  | .mk arg body, _, h =>
    have hbind := tidy_bind (x := arg) (known_enter h)
    restored_newScope (fun c => exp body (bind arg c)) (hbind.trans (tidy_exp body hbind.known))

end

end MLton.LambdaFree
