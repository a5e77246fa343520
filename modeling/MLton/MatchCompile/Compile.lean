import MLton.MatchCompile.Exp

/-!
# MatchCompile/Compile — the match compiler

Rows of patterns are compiled column by column: the rows are split by what the first column asks for, and
what a test has shown about a variable is remembered as a fact, from which the variables of a pattern are
found once its row is all wildcards.  The examples for the diagnostics are left out.
-/

namespace MLton.MatchCompile

/-- `Pat.t`. -/
inductive Pat where
  | con (con : Con) (targs : List Ty)
  | conApp (con : Con) (targs : List Ty) (arg : Pat) (argTy : Ty)
  | const (const : Const) (isChar isInt : Bool)
  | record (fs : List Field) (ps : List Pat)
  | vector (ps : List Pat)
  | wild

namespace Pat

/-- `Pat.isWild`. -/
def isWild : Pat → Bool
  | wild => true
  | _ => false

mutual

/-- `Pat.fromNestedPat`; there are no or-patterns. -/
def fromNestedPat : NestedPat → Option Pat
  | .con _ c targs => some (con c targs)
  | .conApp _ c targs p => (fromNestedPat p).map fun q => conApp c targs q p.ty
  | .const _ c isChar isInt => some (const c isChar isInt)
  | .layered _ _ p => fromNestedPat p
  | .or _ _ => none
  | .record _ fs ps => (fromNestedPats ps).map (record fs)
  | .var _ _ => some wild
  | .vector _ ps => (fromNestedPats ps).map vector
  | .wild _ => some wild

def fromNestedPats : List NestedPat → Option (List Pat)
  | [] => some []
  | p :: ps => (fromNestedPat p).bind fun q => (fromNestedPats ps).map (q :: ·)

end

end Pat

/-! ## Facts -/

/-- `Fact.t`. -/
inductive Fact where
  | con (con : Con) (arg : Option Var)
  | record (fs : List Field) (xs : List Var)
  | vector (xs : List Var)

/-- `Facts.t`. -/
abbrev Facts := List (Var × Fact)

namespace Facts

mutual

/-- The `loop` of `bind`. -/
def bindLoop (fact : Var → Option Fact) : NestedPat → Var → List (Var × Var) → Option (List (Var × Var))
  | .con _ _ _, _, env => some env
  | .conApp _ _ _ p, x, env => match fact x with
    | some (.con _ (some y)) => bindLoop fact p y env
    | _ => none
  | .const _ _ _ _, _, env => some env
  | .layered _ y p, x, env => bindLoop fact p x ((y, x) :: env)
  | .or _ _, _, _ => none
  | .record _ _ ps, x, env => match fact x with
    | some (.record _ xs) => bindLoops fact ps xs env
    | _ => none
  | .var _ y, x, env => some ((y, x) :: env)
  | .vector _ ps, x, env => match fact x with
    | some (.vector xs) => bindLoops fact ps xs env
    | _ => none
  | .wild _, _, env => some env

/-- The `loop` of `bind`, folded over two vectors. -/
def bindLoops (fact : Var → Option Fact) :
    List NestedPat → List Var → List (Var × Var) → Option (List (Var × Var))
  | [], [], env => some env
  | p :: ps, x :: xs, env => (bindLoop fact p x env).bind (bindLoops fact ps xs)
  | _, _, _ => none

end

/-- `Facts.bind`; a variable must not have two facts. -/
def bind (facts : Facts) (x : Var) (p : NestedPat) : Option (List (Var × Var)) :=
  if (facts.map Prod.fst).Nodup then bindLoop (fun x => List.lookup x facts) p x [] else none

end Facts

/-! ## Rules -/

/-- `Rule.t`; what a rule does is `action`. -/
structure Rule (β : Type) where
  pats : List Pat
  action : β
  nestedPat : NestedPat

namespace Rule

variable {β : Type}

/-- `Rule.allWild`. -/
def allWild (r : Rule β) : Bool := r.pats.all Pat.isWild

/-- `Rule.dropNth`, of the first column. -/
def drop (r : Rule β) : Rule β := { r with pats := r.pats.tail }

/-- The pattern of the first column. -/
def head (r : Rule β) : Pat := r.pats.headD .wild

/-- Other patterns in the place of the first one. -/
def expand (f : Pat → List Pat) (r : Rule β) : Rule β := { r with pats := f r.head ++ r.pats.tail }

end Rule

/-- The rules of one case: those that ask for `key`, and those that ask for nothing. -/
structure Split (κ π β : Type) where
  key : κ
  payload : π
  rules : List (Rule β)

section Split

variable {κ π β : Type} [DecidableEq κ]

/-- `insert`. -/
def insertRule (key : κ) (payload : π) (rule : Rule β) (defaults : List (Rule β)) :
    List (Split κ π β) → List (Split κ π β) → List (Split κ π β)
  | [], ac => ⟨key, payload, rule :: defaults⟩ :: ac
  | c :: cases, ac =>
    if key = c.key then { c with rules := rule :: c.rules } :: (ac.reverse ++ cases)
    else insertRule key payload rule defaults cases (c :: ac)

/-- The cases and the defaults, from the last rule to the first; a pattern without a key raises. -/
def splitRules (key : Pat → Option (κ × π)) :
    List (Rule β) → Option (List (Split κ π β) × List (Rule β))
  | [] => some ([], [])
  | rule :: rules => (splitRules key rules).bind fun (cases, defaults) =>
    match rule.head with
    | .wild => some (cases.map fun c => { c with rules := rule :: c.rules }, rule :: defaults)
    | p => (key p).map fun (k, payload) => (insertRule k payload rule defaults cases [], defaults)

end Split

/-! ## Constants that no rule handles -/

section Search

variable {τ : Type} [DecidableEq τ] (le : τ → τ → Bool) (max min : Option τ) (next prev : τ → τ)

/-- `mkExampleConstRange`. -/
def mkExampleConstRange (lo hi : τ) : List (Option τ × Option τ) :=
  if le lo hi then
    if lo = hi then [(some lo, some hi)]
    else if next lo = hi then [(some lo, some lo), (some hi, some hi)]
    else if next lo = prev hi then
      [(some lo, some lo), (some (next lo), some (prev hi)), (some hi, some hi)]
    else [(some lo, some hi)]
  else []

/-- The `loop` of `search`. -/
def searchLoop : List τ → List (Option τ × Option τ)
  | [] => []
  | [cMax] => match max with
    | none => [(some (next cMax), none)]
    | some max => if cMax = max then [] else mkExampleConstRange le next prev (next cMax) max
  | c :: c' :: cs => mkExampleConstRange le next prev (next c) (prev c') ++ searchLoop (c' :: cs)

/-- `search`: the ranges that are left out. -/
def search (cs : List τ) : List (Option τ × Option τ) :=
  let cs := cs.mergeSort le
  let cMin := cs.head?
  match min, cMin with
  | none, some cMin => (none, some (prev cMin)) :: searchLoop le max next prev cs
  | some min, some cMin =>
    if cMin = min then searchLoop le max next prev cs
    else mkExampleConstRange le next prev min (prev cMin) ++ searchLoop le max next prev cs
  | _, none => []

end Search

namespace WordX

variable (size : ℕ) (signed : Bool)

/-- A word of `size` bits as an integer. -/
def toInt (w : ℤ) : ℤ := if signed then w.bmod (2 ^ size) else w % 2 ^ size

/-- `WordX.min`. -/
def min : ℤ := if signed then -(2 ^ (size - 1)) else 0

/-- `WordX.max`. -/
def max : ℤ := if signed then 2 ^ (size - 1) - 1 else 2 ^ size - 1

end WordX

namespace WordXVector

/-- The successor of a vector, whose least significant element is in front. -/
def nextRev (size : ℕ) : List ℕ → List ℕ
  | [] => [0]
  | w :: ws => if w = 2 ^ size - 1 then 0 :: nextRev size ws else (w + 1) :: ws

/-- The predecessor; the empty vector, which has none, is the least one. -/
def prevRev (size : ℕ) : List ℕ → List ℕ
  | [] => []
  | [w] => if w = 0 then [] else [w - 1]
  | w :: ws => if w = 0 then (2 ^ size - 1) :: prevRev size ws else (w - 1) :: ws

/-- `WordXVector.le`: shorter vectors come first. -/
def le (ws ws' : List ℕ) : Bool :=
  ws.length < ws'.length || (ws.length = ws'.length && compareLex ws ws')
where
  compareLex : List ℕ → List ℕ → Bool
    | w :: ws, w' :: ws' => w < w' || (w = w' && compareLex ws ws')
    | _, _ => true

end WordXVector

/-- `unhandledConsts`: is there a constant that is not among these? -/
def unhandledConsts (cs : List Const) (isInt : Bool) : Option Bool :=
  match cs with
  | .intInf _ :: _ => do
    let is ← cs.mapM fun
      | .intInf i => some i
      | _ => none
    pure ¬ (search (fun i j => decide (i ≤ j)) none none (· + 1) (· - 1) is).isEmpty
  | .word size _ :: _ => do
    let ws ← cs.mapM fun
      | .word _ value => some (WordX.toInt size isInt value)
      | _ => none
    pure ¬ (search (fun w w' => decide (w ≤ w')) (some (WordX.max size isInt))
      (some (WordX.min size isInt)) (fun w => WordX.toInt size isInt (w + 1))
      (fun w => WordX.toInt size isInt (w - 1)) ws).isEmpty
  | .wordVector size _ :: _ => do
    let wss ← cs.mapM fun
      | .wordVector _ ws => some ws
      | _ => none
    pure ¬ (search WordXVector.le none (some []) (fun ws => (WordXVector.nextRev size ws.reverse).reverse)
      (fun ws => (WordXVector.prevRev size ws.reverse).reverse) wss).isEmpty
  | _ => none

/-! ## The compiler -/

/-- The datatypes of the program: the type constructor of a constructor, the constructors of a type
constructor and whether they take an argument, and the type of that argument. -/
structure Datatypes where
  conTycon : Con → Tycon
  tyconCons : Tycon → List (Con × Bool)
  conArg : Con → List Ty → Option Ty
  mem_tyconCons : ∀ {c}, conTycon c ≠ .exn → c ∈ (tyconCons (conTycon c)).map Prod.fst
  conTycon_reff : ∀ {c}, conTycon c = .reff ↔ c = reff
  conArg_reff : ∀ t, conArg reff [t] = some t

/-- `directCases`. -/
def directCases (ty : Ty) : Option ℕ :=
  match ty with
  | .word size => if 1 ≤ size ∧ size ≤ 32 then some size else none
  | _ => none

/-- What the compiler makes names with and may raise from. -/
abbrev M := StateT Supply Option

/-- What an action is given: the names that stand for the variables of the pattern. -/
abbrev Action (β : Type) := β × (Var → Option Var)

section Compile

variable {β : Type} (D : Datatypes) (seqIndex : ℕ) (caseType : Ty) (test : Var)

/-- The recursive calls of `match`. -/
abbrev Rec (β : Type) := List (Var × Ty) → List (Rule β) → Facts → M (Exp (Action β))

variable (recur : Rec β)

/-- Fresh variables. -/
def newNonames : List Ty → M (List (Var × Ty))
  | [] => pure []
  | ty :: tys => do
    let x ← fun n => some (Var.newNoname n)
    let xs ← newNonames tys
    pure ((x, ty) :: xs)

/-- The key of a constant. -/
def constKey : Pat → Option (Const × Unit)
  | .const c _ _ => some (c, ())
  | _ => none

/-- An expression that is not always needed. -/
def optional {α : Type} (needed : Bool) (m : M α) : M (Option α) :=
  if needed then m >>= fun e => pure (some e) else pure none

/-- What `const` makes of the cases and the default. -/
def constExp (var : Var × Ty) (cases : List (Const × Exp (Action β))) (default : Option (Exp (Action β))) :
    Option (Exp (Action β)) :=
  let test := Exp.var var.1 var.2 .undetermined
  let iffs := fun cases default => Exp.casesIff test caseType cases default
  match directCases var.2 with
  | none => match default with
    | some default => some (iffs cases default)
    | none => cases.getLast?.map fun (_, e) => iffs cases.dropLast e
  | some size => do
    let cases ← cases.mapM fun (c, e) => match c with
      | .word _ w => some (w, e)
      | _ => none
    pure (.casee (.ofWord size cases default) test caseType .heap)

/-- `const`. -/
def const (var : Var × Ty) (vars : List (Var × Ty)) (rules : List (Rule β)) (facts : Facts) :
    M (Exp (Action β)) := do
  let isInt := (rules.findSome? fun r => match r.head with
    | .const _ _ isInt => some isInt
    | _ => none).getD false
  let (cases, defaults) ← splitRules constKey rules
  let finish := fun rules => recur vars (rules.map Rule.drop) facts
  let unhandled ← unhandledConsts (cases.map Split.key) isInt
  let default ← optional unhandled (finish defaults)
  let cases ← cases.mapM fun c => do
    let e ← finish c.rules
    pure (c.key, e)
  constExp caseType var cases default

/-- The key of a constructor, with its type arguments and the type of its argument. -/
def sumKey : Pat → Option (Con × List Ty × Option Ty)
  | .con c targs => some (c, targs, none)
  | .conApp c targs _ ty => some (c, targs, some ty)
  | _ => none

/-- What the pattern of the first column becomes where the constructor is known. -/
def decon (hasArg : Bool) : Pat → List Pat
  | .conApp _ _ p _ => [p]
  | .wild => if hasArg then [.wild] else []
  | _ => []

/-- What `sum` makes of the cases and the default. -/
def sumExp (var : Var × Ty) (cases : List (CasePat × Exp (Action β))) (default : Option (Exp (Action β))) :
    Option (Exp (Action β)) :=
  let test := Exp.var var.1 var.2 .undetermined
  let normal := Exp.casee (.ofCon cases default) test caseType .heap
  match cases with
  | [(pat, rhs)] =>
    if pat.con ≠ reff then some normal
    else pat.arg.map fun (x, _, mode) => .lett x (.deref test) mode rhs
  | _ => some normal

/-- `sum`. -/
def sum (var : Var × Ty) (vars : List (Var × Ty)) (rules : List (Rule β)) (facts : Facts) (tycon : Tycon) :
    M (Exp (Action β)) := do
  let (cases, defaults) ← splitRules sumKey rules
  let handled := cases.map Split.key
  let cases ← cases.mapM fun c => do
    let arg ← newNonames c.payload.2.toList
    let e ← recur (arg ++ vars) (c.rules.map (Rule.expand (decon c.payload.2.isSome)))
      ((var.1, .con c.key (arg.head?.map Prod.fst)) :: facts)
    pure ({ arg := arg.head?.map fun (x, ty) => (x, ty, .heap), con := c.key,
            targs := c.payload.1 : CasePat }, e)
  let unhandled :=
    if cases.isEmpty then true
    else if tycon = .exn then true
    else !((D.tyconCons tycon).filter fun c => c.1 ∉ handled).isEmpty
  let default ← optional unhandled (recur vars (defaults.map Rule.drop) facts)
  sumExp caseType var cases default

/-- What the pattern of the first column becomes where the components of a record are known. -/
def derecord (n : ℕ) : Pat → Option (List Pat)
  | .record _ ps => some ps
  | .wild => some (List.replicate n .wild)
  | _ => none

/-- A rule with the components of its first pattern. -/
def expandM (f : Pat → Option (List Pat)) (r : Rule β) : Option (Rule β) :=
  (f r.head).map fun ps => { r with pats := ps ++ r.pats.tail }

/-- `record`. -/
def record (var : Var × Ty) (vars : List (Var × Ty)) (rules : List (Rule β)) (facts : Facts)
    (fs : List Field) : M (Exp (Action β)) :=
  let test := Exp.var var.1 var.2 .undetermined
  let body := fun (vars' : List (Var × Ty)) => do
    let rules ← (rules.mapM (expandM (derecord vars'.length)) : Option (List (Rule β)))
    recur (vars' ++ vars) rules ((var.1, .record fs (vars'.map Prod.fst)) :: facts)
  -- a variable has one fact only, so the field gets a variable of its own
  if fs.length = 1 then do
    let xs ← newNonames [var.2]
    let e ← body xs
    pure (xs.foldr (fun x e => .lett x.1 test .heap e) e)
  else do
    let xs ← newNonames var.2.deTuple
    let e ← body xs
    pure (.detuple (xs.map Prod.fst) test e)

/-- The key of a vector. -/
def vectorKey : Pat → Option (ℕ × Unit)
  | .vector ps => some (ps.length, ())
  | _ => none

/-- What the pattern of the first column becomes where the elements of a vector are known. -/
def devector (len : ℕ) : Pat → List Pat
  | .vector ps => ps
  | _ => List.replicate len .wild

/-- `vector`. -/
def vector (var : Var × Ty) (vars : List (Var × Ty)) (rules : List (Rule β)) (facts : Facts) :
    M (Exp (Action β)) := do
  let (cases, defaults) ← splitRules vectorKey rules
  let default ← recur vars (defaults.map Rule.drop) facts
  let test := Exp.var var.1 var.2 .undetermined
  let cases ← cases.mapM fun c => do
    let xs ← newNonames (List.replicate c.key var.2.deVector)
    let e ← recur (xs ++ vars) (c.rules.map (Rule.expand (devector c.key)))
      ((var.1, .vector (xs.map Prod.fst)) :: facts)
    pure (c.key % 2 ^ seqIndex, Exp.devector (xs.map Prod.fst) test e)
  pure (.casee (.ofWord seqIndex cases (some default)) (.vectorLength test) caseType .heap)

/-- One call of `match`; the column is always the first one (`chooseColumn`). -/
def matchStep (vars : List (Var × Ty)) (rules : List (Rule β)) (facts : Facts) : M (Exp (Action β)) :=
  match rules with
  | [] => failure
  | first :: _ =>
    if first.allWild then do
      let env ← facts.bind test first.nestedPat
      pure (.action (first.action, fun x => List.lookup x env))
    else match vars with
      | [] => failure
      | var :: vars => match rules.find? fun r => !r.head.isWild with
        | none => recur vars (rules.map Rule.drop) facts
        | some r => match r.head with
          | .const _ _ _ => const caseType recur var vars rules facts
          | .con c _ => sum D caseType recur var vars rules facts (D.conTycon c)
          | .conApp c _ _ _ => sum D caseType recur var vars rules facts (D.conTycon c)
          | .record fs _ => record recur var vars rules facts fs
          | .vector _ => vector seqIndex caseType recur var vars rules facts
          | .wild => failure

/-- `match`, to a depth of recursion. -/
def matchRules : ℕ → Rec β
  | 0 => fun _ _ _ => failure
  | fuel + 1 => matchStep D seqIndex caseType test (matchRules fuel)

end Compile

/-! ## Whole matches -/

mutual

/-- The size of a pattern. -/
def Pat.weight : Pat → ℕ
  | con _ _ => 1
  | conApp _ _ p _ => weight p + 1
  | const _ _ _ => 1
  | record _ ps => weights ps + ps.length + 1
  | vector ps => weights ps + ps.length + 1
  | wild => 0

def Pat.weights : List Pat → ℕ
  | [] => 0
  | p :: ps => weight p + weights ps

end

/-- The size of rules, which every call makes smaller. -/
def size {β : Type} (vars : List (Var × Ty)) (rules : List (Rule β)) : ℕ :=
  (rules.map fun r => Pat.weights r.pats).sum + vars.length

/-- `matchCompile`; a row's action is given the number of its patterns without alternatives. -/
def matchCompile {β : Type} (D : Datatypes) (seqIndex : ℕ) (caseType : Ty) (test : Var) (testType : Ty)
    (cases : List (NestedPat × (ℕ → β))) : M (Exp (Action β)) := do
  let cases := cases.flatMap fun (pat, mk) =>
    let pats := pat.flatten
    let mk := mk pats.length
    pats.map fun pat => (pat, mk)
  let rules ← (cases.mapM fun (p, f) => do
    let q ← Pat.fromNestedPat p
    pure { pats := [q], action := f, nestedPat := p : Rule β } : Option (List (Rule β)))
  let vars := [(test, testType)]
  matchRules D seqIndex caseType test (size vars rules + 1) vars rules []

end MLton.MatchCompile
