import MLton.Atoms

/-!
# ClosureConvert/Sxml — expressions with nested functions

The part of the SXML tree that the variables are in.  An expression is a list of declarations and a
result; functions that are declared together may call each other.  A lambda's property list is its own,
and it is named here by the variable that the lambda binds, which no other lambda binds.

`Exp.scoped` says that every variable occurs where it is bound, which the type checker has checked, and
`Exp.binders` lists what is bound anywhere; bindings are unique if nothing is listed twice.
-/

namespace MLton.Sxml

mutual

/-- `Exp.t`. -/
inductive Exp where
  | mk (decs : List Dec) (result : Var)

/-- `Dec.t`. -/
inductive Dec where
  | exception
  | monoVal (var : Var) (exp : PrimExp)
  | polyVal (var : Var) (exp : Exp)
  | funs (decs : List FunDec)

/-- One of the functions that are declared together. -/
inductive FunDec where
  | mk (var : Var) (lambda : Lambda)

/-- `PrimExp.t`. -/
inductive PrimExp where
  | app (func arg : Var)
  | case (test : Var) (cases : List Case) (default : Option Exp)
  | conApp (arg : Option Var)
  | const
  | handle (tryy : Exp) (catch_ : Var) (handler : Exp)
  | lambda (l : Lambda)
  | primApp (args : List Var)
  | profile
  | raise (exn : Var)
  | select (tuple : Var)
  | tuple (xs : List Var)
  | var (x : Var)

/-- A case, with the variable of a constructor pattern. -/
inductive Case where
  | mk (arg : Option Var) (exp : Exp)

/-- `Lambda.t`. -/
inductive Lambda where
  | mk (arg : Var) (body : Exp)

end

/-- The function's name. -/
def FunDec.var : FunDec → Var
  | mk x _ => x

def FunDec.lambda : FunDec → Lambda
  | mk _ l => l

def Lambda.arg : Lambda → Var
  | mk x _ => x

def Lambda.body : Lambda → Exp
  | mk _ e => e

/-- The variables that a declaration binds in those behind it. -/
def Dec.bound : Dec → List Var
  | .exception => []
  | .monoVal x _ => [x]
  | .polyVal x _ => [x]
  | .funs ds => ds.map FunDec.var

/-! ## Occurrences and binders -/

mutual

/-- The variables that occur. -/
def Exp.occurs : Exp → List Var
  | .mk ds result => occursDecs ds ++ [result]

def occursDecs : List Dec → List Var
  | [] => []
  | d :: ds => d.occurs ++ occursDecs ds

def Dec.occurs : Dec → List Var
  | .exception => []
  | .monoVal _ e => e.occurs
  | .polyVal _ e => e.occurs
  | .funs ds => occursFuns ds

def occursFuns : List FunDec → List Var
  | [] => []
  | d :: ds => d.occurs ++ occursFuns ds

def FunDec.occurs : FunDec → List Var
  | .mk _ l => l.occurs

def PrimExp.occurs : PrimExp → List Var
  | .app func arg => [func, arg]
  | .case test cases default => test :: (occursDefault default ++ occursCases cases)
  | .conApp arg => arg.toList
  | .const => []
  | .handle tryy _ handler => tryy.occurs ++ handler.occurs
  | .lambda l => l.occurs
  | .primApp args => args
  | .profile => []
  | .raise exn => [exn]
  | .select tuple => [tuple]
  | .tuple xs => xs
  | .var x => [x]

def occursDefault : Option Exp → List Var
  | none => []
  | some e => e.occurs

def occursCases : List Case → List Var
  | [] => []
  | c :: cs => c.occurs ++ occursCases cs

def Case.occurs : Case → List Var
  | .mk _ e => e.occurs

def Lambda.occurs : Lambda → List Var
  | .mk _ body => body.occurs

end

mutual

/-- The variables that are bound. -/
def Exp.binders : Exp → List Var
  | .mk ds _ => bindersDecs ds

def bindersDecs : List Dec → List Var
  | [] => []
  | d :: ds => d.binders ++ bindersDecs ds

def Dec.binders : Dec → List Var
  | .exception => []
  | .monoVal x e => e.binders ++ [x]
  | .polyVal x e => e.binders ++ [x]
  | .funs ds => ds.map FunDec.var ++ bindersFuns ds

/-- Those in the functions, without their names. -/
def bindersFuns : List FunDec → List Var
  | [] => []
  | d :: ds => d.binders ++ bindersFuns ds

def FunDec.binders : FunDec → List Var
  | .mk _ l => l.binders

def PrimExp.binders : PrimExp → List Var
  | .case _ cases default => bindersDefault default ++ bindersCases cases
  | .handle tryy x handler => tryy.binders ++ x :: handler.binders
  | .lambda l => l.binders
  | _ => []

def bindersDefault : Option Exp → List Var
  | none => []
  | some e => e.binders

def bindersCases : List Case → List Var
  | [] => []
  | c :: cs => c.binders ++ bindersCases cs

def Case.binders : Case → List Var
  | .mk arg e => arg.toList ++ e.binders

def Lambda.binders : Lambda → List Var
  | .mk arg body => arg :: body.binders

end

/-! ## Scopes -/

mutual

/-- Every variable occurs where it is bound, or is one of the given. -/
def Exp.scoped (Γ : List Var) : Exp → Bool
  | .mk ds result => scopedDecs Γ result ds

def scopedDecs (Γ : List Var) (result : Var) : List Dec → Bool
  | [] => result ∈ Γ
  | d :: ds => d.scoped Γ && scopedDecs (d.bound ++ Γ) result ds

def Dec.scoped (Γ : List Var) : Dec → Bool
  | .exception => true
  | .monoVal _ e => e.scoped Γ
  | .polyVal _ e => e.scoped Γ
  | .funs ds => scopedFuns (ds.map FunDec.var ++ Γ) ds

def scopedFuns (Γ : List Var) : List FunDec → Bool
  | [] => true
  | d :: ds => d.scoped Γ && scopedFuns Γ ds

def FunDec.scoped (Γ : List Var) : FunDec → Bool
  | .mk _ l => l.scoped Γ

def PrimExp.scoped (Γ : List Var) : PrimExp → Bool
  | .app func arg => func ∈ Γ && arg ∈ Γ
  | .case test cases default => test ∈ Γ && scopedDefault Γ default && scopedCases Γ cases
  | .conApp arg => arg.all (· ∈ Γ)
  | .const => true
  | .handle tryy x handler => tryy.scoped Γ && handler.scoped (x :: Γ)
  | .lambda l => l.scoped Γ
  | .primApp args => args.all (· ∈ Γ)
  | .profile => true
  | .raise exn => exn ∈ Γ
  | .select tuple => tuple ∈ Γ
  | .tuple xs => xs.all (· ∈ Γ)
  | .var x => x ∈ Γ

def scopedDefault (Γ : List Var) : Option Exp → Bool
  | none => true
  | some e => e.scoped Γ

def scopedCases (Γ : List Var) : List Case → Bool
  | [] => true
  | c :: cs => c.scoped Γ && scopedCases Γ cs

def Case.scoped (Γ : List Var) : Case → Bool
  | .mk arg e => e.scoped (arg.toList ++ Γ)

def Lambda.scoped (Γ : List Var) : Lambda → Bool
  | .mk arg body => body.scoped (arg :: Γ)

end

end MLton.Sxml
