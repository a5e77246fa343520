import Mathlib.Data.Int.Notation
import Mathlib.Data.List.Basic

/-!
# Atoms — the names, modes and call shapes every intermediate language shares

Variables, labels, functions and constructors are generative: two names are equal exactly when they
were made by the same call, so a name is its identity and nothing more.  `Handler` and `Return` say
what a call does with a raised and with a returned value.
-/

namespace MLton

/-- A variable. -/
structure Var where
  id : ℕ
deriving DecidableEq, Repr

/-- A block label. -/
structure Label where
  id : ℕ
deriving DecidableEq, Repr

/-- A function name. -/
structure Func where
  id : ℕ
deriving DecidableEq, Repr

/-- A datatype constructor. -/
structure Con where
  id : ℕ
deriving DecidableEq, Repr

/-- The next unused identity — what `newNoname` draws from. -/
abbrev Supply := ℕ

/-- A fresh variable. -/
def Var.newNoname : StateM Supply Var := fun n => (⟨n⟩, n + 1)

/-- A fresh label. -/
def Label.newNoname : StateM Supply Label := fun n => (⟨n⟩, n + 1)

/-- Where an allocation goes. -/
inductive Mode where
  | stack
  | heap
  | undetermined
  | constant
deriving DecidableEq, Repr

/-- What a call does with an exception raised by the callee. -/
inductive Handler where
  | caller
  | dead
  | handle (l : Label)
deriving DecidableEq, Repr

namespace Handler

/-- `Handler.foldLabel`, as the list of labels in fold order. -/
def labels : Handler → List Label
  | caller => []
  | dead => []
  | handle l => [l]

end Handler

/-- What a call does with the values returned by the callee. -/
inductive Return where
  | dead
  | nonTail (cont : Label) (handler : Handler)
  | tail
deriving DecidableEq, Repr

namespace Return

/-- `Return.foldLabel`, as the list of labels in fold order: the continuation, then the handler. -/
def labels : Return → List Label
  | dead => []
  | nonTail cont handler => cont :: handler.labels
  | tail => []

end Return

end MLton
