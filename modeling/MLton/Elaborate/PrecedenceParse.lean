import MLton.Lib.OperatorTree

/-!
# Elaborate/PrecedenceParse — infix resolution

`parse` goes over the items with a stack on which an operand and an operator alternate.  A fixity has two
precedences, one for each side: twice the level, and one more on the side it does not associate to.  An
operator is pushed if its left precedence is greater than the right one of the operator on the stack, and
otherwise that one is applied first.

On values of any kind `parse` is its value on trees (`parse_eval`), so trees are enough.
-/

namespace MLton.PrecedenceParse

open OperatorTree

/-- `Ast.Fixity.t`: `Infix`, `Infixr` and `Nonfix`. -/
inductive Fixity where
  | left (level : Option ℕ)
  | right (level : Option ℕ)
  | nonfix

/-- `Fixval.t`: `Nonfix`, and `Infix` with the precedences to the left and to the right. -/
inductive Fixval where
  | nonfix
  | op (lbp rbp : ℕ)

/-- `Fixval.eval`. -/
def Fixval.eval : Fixity → Fixval
  | .left none => op 0 1
  | .left (some n) => op (n + n) (n + n + 1)
  | .right none => op 1 0
  | .right (some n) => op (n + n + 1) (n + n)
  | .nonfix => nonfix

/-- A fixity as the role of an item; without a level it is zero. -/
def Fixity.role : Fixity → Role
  | left level => .operator (level.getD 0) false
  | right level => .operator (level.getD 0) true
  | nonfix => .operand

/-- `precStack`. -/
inductive PrecStack (α : Type*) where
  | inf (bp : ℕ) (e : α) (stack : PrecStack α)
  | nonf (e : α) (stack : PrecStack α)
  | nilf

/-- The number of entries. -/
def PrecStack.depth {α : Type*} : PrecStack α → ℕ
  | inf _ _ stack => stack.depth + 1
  | nonf _ stack => stack.depth + 1
  | nilf => 0

/-- An error: where, and what it says. -/
structure Error (R : Type*) where
  region : R
  msg : String

/-- The arguments of `parse`, and `Region.append`. -/
structure Args (α R : Type*) where
  append : R → R → R
  apply (func arg : α) : α
  applyInfix (func argl argr : α) : α
  fixval : α → Fixval
  name : String
  region : α → R
  toString : α → String

namespace Args

variable {α R : Type*} (A : Args α R)

/-- `ensureNONf`. -/
def ensureNONf (token : α × Fixval) (p : PrecStack α) (start : Bool) (errors : List (Error R)) :
    List (Error R) × PrecStack α :=
  match token with
  | (e, .nonfix) => (errors, .nonf e p)
  | (e, .op _ _) => (errors ++ [⟨A.region e,
      (if start then A.name ++ " starts with infix identifier: " else "identifier must be used infix: ") ++
        A.toString e⟩], .nonf e p)

/-- `start`. -/
def start (token : α × Fixval) : List (Error R) × PrecStack α := A.ensureNONf token .nilf true []

/-- The inner `parse`; `Except.error` is `Error.bug`. -/
def parseToken (errors : List (Error R)) (stack : PrecStack α) (token : α × Fixval) :
    Except String (List (Error R) × PrecStack α) :=
  match stack, token with
  | .nonf e r, (e', .nonfix) => .ok (errors, .nonf (A.apply e e') r)
  | .inf bp e r, token => .ok (A.ensureNONf token (.inf bp e r) false errors)
  | .nonf e1 (.inf bp e2 (.nonf e3 r)), (e4, .op lbp rbp) =>
    if lbp > bp then .ok (errors, .inf rbp e4 (.nonf e1 (.inf bp e2 (.nonf e3 r))))
    else
      let errors :=
        if lbp = bp then errors ++ [⟨A.append (A.region e2) (A.region e4),
          "infix identifiers with equal precedence but mixed associativity: " ++ A.toString e2 ++ ", " ++
            A.toString e4⟩]
        else errors
      parseToken errors (.nonf (A.applyInfix e2 e3 e1) r) (e4, .op lbp rbp)
  | .nonf e r, (e', .op _ rbp) => .ok (errors, .inf rbp e' (.nonf e r))
  | .nilf, _ => .error "PrecedenceParse.parse.parse"
termination_by stack.depth
decreasing_by simp [PrecStack.depth]

/-- `finish`. -/
def finish (errors : List (Error R)) (stack : PrecStack α) : Except String (List (Error R) × α) :=
  match stack with
  | .nonf e1 (.inf _ e2 (.nonf e3 r)) => finish errors (.nonf (A.applyInfix e2 e3 e1) r)
  | .nonf e1 .nilf => .ok (errors, e1)
  | .inf _ e1 (.nonf e2 p) =>
    finish (errors ++ [⟨A.region e1, A.name ++ " ends with infix identifier: " ++ A.toString e1⟩])
      (.nonf (A.apply e2 e1) p)
  | .nilf => .error "PrecedenceParse.parse.finish: NILf"
  | _ => .error "PrecedenceParse.parse.finish"
termination_by stack.depth
decreasing_by all_goals simp [PrecStack.depth]

/-- The fold over items. -/
def feed (acc : List (Error R) × PrecStack α) (items : List α) :
    Except String (List (Error R) × PrecStack α) :=
  items.foldlM (fun acc item => A.parseToken acc.1 acc.2 (item, A.fixval item)) acc

/-- `parse`, with the errors it reports. -/
def parse (items : List α) : Except String (List (Error R) × α) :=
  match items with
  | [] => .error "PrecedenceParse.parse"
  | item :: items => A.feed (A.start (item, A.fixval item)) items >>= fun acc => A.finish acc.1 acc.2

end Args

end MLton.PrecedenceParse

/-!
## The stack of infix resolution

`parse` with any functions to apply returns the value of the tree that it returns when it builds trees
(`parse_eval`).  On trees it keeps the items in order, and it never gets to a bug (`parse_ok`): between two
items operands and operators alternate on the stack (`Running`).
-/

namespace MLton.PrecedenceParse

open OperatorTree OpTree

variable {α R : Type*} (A : Args α R)

/-- The value of a tree. -/
def Args.value (t : OpTree α) : α := t.eval id A.apply A.applyInfix

/-- The arguments with which `parse` builds trees. -/
def Args.trees : Args (OpTree α) R where
  append := A.append
  apply := app
  applyInfix := appInfix
  fixval t := A.fixval (A.value t)
  name := A.name
  region t := A.region (A.value t)
  toString t := A.toString (A.value t)

/-- Change the entries of a stack. -/
def PrecStack.map {β : Type*} (f : α → β) : PrecStack α → PrecStack β
  | inf bp e stack => inf bp (f e) (stack.map f)
  | nonf e stack => nonf (f e) (stack.map f)
  | nilf => nilf

variable {A} {errors errors' : List (Error R)} {S S' : PrecStack (OpTree α)} {t : OpTree α} {fv : Fixval}
  {token : OpTree α × Fixval}

/-! ## Values -/

theorem ensureNONf_map (token : OpTree α × Fixval) (S : PrecStack (OpTree α)) {start : Bool} :
    A.ensureNONf (A.value token.1, token.2) (S.map A.value) start errors =
      ((A.trees.ensureNONf token S start errors).1,
        (A.trees.ensureNONf token S start errors).2.map A.value) := by
  obtain ⟨t, fv⟩ := token
  cases fv <;> rfl

theorem parseToken_map (errors : List (Error R)) (S : PrecStack (OpTree α)) (token : OpTree α × Fixval) :
    A.parseToken errors (S.map A.value) (A.value token.1, token.2) = (A.trees.parseToken errors S token).map fun r => (r.1, r.2.map A.value) := by
  fun_induction Args.parseToken A.trees errors S token with
  | case1 errors e r e' =>
    rw [PrecStack.map, Args.parseToken]
    rfl
  | case2 errors bp e r token =>
    rw [PrecStack.map, Args.parseToken, ← PrecStack.map, ensureNONf_map]
    rfl
  | case3 errors e1 bp e2 e3 r e4 lbp rbp hlt =>
    rw [PrecStack.map, PrecStack.map, PrecStack.map, Args.parseToken, if_pos hlt]
    rfl
  | case4 errors e1 bp e2 e3 r e4 lbp rbp hle errors' ih =>
    rw [PrecStack.map, PrecStack.map, PrecStack.map, Args.parseToken, if_neg hle, ← ih]
    rfl
  | case5 errors e r e' lbp rbp hshape =>
    have hshape' : ∀ bp e2 e3 r', r.map A.value = .inf bp e2 (.nonf e3 r') → False := by
      intro bp e2 e3 r' hr
      cases r with
      | inf bp' e2' r =>
        cases r with
        | nonf e3' r => exact hshape _ _ _ _ rfl
        | inf | nilf => simp [PrecStack.map] at hr
      | nonf | nilf => simp [PrecStack.map] at hr
    rw [PrecStack.map, Args.parseToken]
    · rfl
    · exact hshape'
  | case6 errors token => rw [PrecStack.map, Args.parseToken]; rfl

theorem finish_map : A.finish errors (S.map A.value) =
    (A.trees.finish errors S).map fun r => (r.1, A.value r.2) := by
  fun_induction Args.finish A.trees errors S with
  | case1 errors e1 bp e2 e3 r ih =>
    rw [PrecStack.map, PrecStack.map, PrecStack.map, Args.finish, ← ih]
    rfl
  | case2 errors e1 =>
    rw [PrecStack.map, PrecStack.map, Args.finish]
    rfl
  | case3 errors bp e1 e2 p ih =>
    rw [PrecStack.map, PrecStack.map, Args.finish, ← ih]
    rfl
  | case4 errors =>
    rw [PrecStack.map, Args.finish]
    rfl
  | case5 errors S h1 h2 h3 h4 =>
    -- The shapes that no other case is for.
    cases S with
    | nilf => exact absurd rfl h4
    | inf bp e1 p =>
      cases p with
      | nonf e2 p => exact absurd rfl (h3 bp e1 e2 p)
      | inf | nilf => simp [PrecStack.map, Args.finish, Except.map]
    | nonf e1 p =>
      cases p with
      | nilf => exact absurd rfl (h2 e1)
      | nonf => simp [PrecStack.map, Args.finish, Except.map]
      | inf bp e2 p =>
        cases p with
        | nonf e3 p => exact absurd rfl (h1 e1 bp e2 e3 p)
        | inf | nilf => simp [PrecStack.map, Args.finish, Except.map]

theorem feed_map : ∀ {items : List α} {errors : List (Error R)} {S : PrecStack (OpTree α)},
    A.feed (errors, S.map A.value) items =
      (A.trees.feed (errors, S) (items.map leaf)).map fun r => (r.1, r.2.map A.value)
  | [], _, _ => rfl
  | item :: items, errors, S => by
      have htoken := parseToken_map (A := A) errors S (leaf item, A.fixval item)
      simp only [Args.feed, List.map_cons, List.foldlM_cons] at htoken ⊢
      change (A.parseToken errors (S.map A.value) (A.value (leaf item), A.fixval item) >>= _) = _
      rw [htoken]
      change _ = Except.map _ (A.trees.parseToken errors S (leaf item, A.fixval item) >>= _)
      cases A.trees.parseToken errors S (leaf item, A.fixval item) with
      | error bug => rfl
      | ok r => exact feed_map

/-- **What `parse` returns is the value of a tree**, the one that it returns when it builds trees. -/
theorem parse_eval : ∀ {items : List α},
    A.parse items = (A.trees.parse (items.map leaf)).map fun r => (r.1, A.value r.2)
  | [] => rfl
  | item :: items => by
      have hstart : A.start (item, A.fixval item) = ((A.trees.start (leaf item, A.fixval item)).1,
          (A.trees.start (leaf item, A.fixval item)).2.map A.value) :=
        ensureNONf_map (leaf item, A.fixval item) .nilf
      rw [Args.parse, hstart, feed_map, List.map_cons, Args.parse]
      change _ = Except.map _ (A.trees.feed (A.trees.start (leaf item, A.fixval item)) _ >>= _)
      cases A.trees.feed (A.trees.start (leaf item, A.fixval item)) (items.map leaf) with
      | error bug => rfl
      | ok r => exact finish_map

/-! ## Every list of items -/

/-- What an operand may stand on: nothing, or an operator on an operand. -/
inductive Below {β : Type*} : PrecStack β → Prop
  | nilf : Below .nilf
  | inf {bp : ℕ} {op e : β} {p : PrecStack β} : Below p → Below (.inf bp op (.nonf e p))

/-- What the stack looks like between two items. -/
inductive Running {β : Type*} : PrecStack β → Prop
  | nonf {e : β} {p : PrecStack β} : Below p → Running (.nonf e p)
  | inf {bp : ℕ} {op e : β} {p : PrecStack β} : Below p → Running (.inf bp op (.nonf e p))

/-- The items on a stack, in order. -/
def PrecStack.leaves : PrecStack (OpTree α) → List α
  | inf _ e stack => stack.leaves ++ e.leaves
  | nonf e stack => stack.leaves ++ e.leaves
  | nilf => []

variable {a : α} {p : PrecStack (OpTree α)} {e : OpTree α}

theorem ensureNONf_ok (errors : List (Error R)) (a : α) (fv : Fixval) (p : PrecStack (OpTree α))
    (start : Bool) : ∃ errors', A.trees.ensureNONf (leaf a, fv) p start errors =
    (errors', .nonf (leaf a) p) ∧ errors <+: errors' := by
  cases fv with
  | nonfix => exact ⟨errors, rfl, List.prefix_rfl⟩
  | op lbp rbp => exact ⟨_, rfl, List.prefix_append _ _⟩

/-- An operator behind an operand. -/
theorem parseToken_op_ok (hp : Below p) (lbp rbp : ℕ) : ∀ (e : OpTree α) (errors : List (Error R)),
    ∃ errors' e' p', A.trees.parseToken errors (.nonf e p) (leaf a, .op lbp rbp) =
      .ok (errors', .inf rbp (leaf a) (.nonf e' p')) ∧ Below p' ∧
      (PrecStack.nonf e' p').leaves = (PrecStack.nonf e p).leaves ∧ errors <+: errors' := by
  induction hp with
  | nilf =>
    intro e errors
    exact ⟨errors, e, .nilf, by rw [Args.parseToken]; simp, .nilf, rfl, List.prefix_rfl⟩
  | @inf bp op e3 r hr ih =>
    intro e errors
    rw [Args.parseToken]
    split
    · exact ⟨errors, e, _, rfl, .inf hr, rfl, List.prefix_rfl⟩
    · obtain ⟨errors', e', p', heq, hp', hleaves, hprefix⟩ := ih (A.trees.applyInfix op e3 e)
        (if lbp = bp then errors ++ [⟨A.trees.append (A.trees.region op) (A.trees.region (leaf a)),
          "infix identifiers with equal precedence but mixed associativity: " ++ A.trees.toString op ++
            ", " ++ A.trees.toString (leaf a)⟩] else errors)
      refine ⟨errors', e', p', heq, hp', ?_, List.IsPrefix.trans ?_ hprefix⟩
      · rw [hleaves]
        simp [PrecStack.leaves, Args.trees, OpTree.leaves]
      · split
        · exact List.prefix_append _ _
        · exact List.prefix_rfl

/-- **One item**: no bug, and it is put behind the items on the stack. -/
theorem parseToken_ok (h : Running S) (errors : List (Error R)) (a : α) (fv : Fixval) :
    ∃ errors' S', A.trees.parseToken errors S (leaf a, fv) = .ok (errors', S') ∧ Running S' ∧ S'.leaves = S.leaves ++ [a] ∧ errors <+: errors' := by
  cases h with
  | @nonf e p hp =>
    cases fv with
    | nonfix =>
      refine ⟨errors, _, by rw [Args.parseToken], .nonf hp, ?_, List.prefix_rfl⟩
      simp [PrecStack.leaves, Args.trees, OpTree.leaves]
    | op lbp rbp =>
      obtain ⟨errors', e', p', heq, hp', hleaves, hprefix⟩ := parseToken_op_ok hp lbp rbp e errors
      exact ⟨errors', _, heq, .inf hp', by rw [PrecStack.leaves, hleaves, OpTree.leaves], hprefix⟩
  | @inf bp op e p hp =>
    obtain ⟨errors', heq, hprefix⟩ := ensureNONf_ok (A := A) errors a fv (.inf bp op (.nonf e p)) false
    exact ⟨errors', _, by rw [Args.parseToken, heq], .nonf (.inf hp), rfl, hprefix⟩

theorem feed_ok : ∀ (items : List α) (errors : List (Error R)) {S : PrecStack (OpTree α)}, Running S →
    ∃ errors' S', A.trees.feed (errors, S) (items.map leaf) = .ok (errors', S') ∧ Running S' ∧
      S'.leaves = S.leaves ++ items ∧ errors <+: errors'
  | [], errors, S, h => ⟨errors, S, rfl, h, by simp, List.prefix_rfl⟩
  | item :: items, errors, S, h => by
      obtain ⟨errors₁, S₁, heq₁, h₁, hleaves₁, hprefix₁⟩ :=
        parseToken_ok (A := A) h errors item (A.trees.fixval (leaf item))
      obtain ⟨errors', S', heq, h', hleaves, hprefix⟩ := feed_ok items errors₁ h₁
      refine ⟨errors', S', ?_, h', by rw [hleaves, hleaves₁]; simp, hprefix₁.trans hprefix⟩
      rw [List.map_cons, Args.feed, List.foldlM_cons, heq₁]
      exact heq

theorem finish_nonf_ok (hp : Below p) : ∀ (e : OpTree α) (errors : List (Error R)),
    ∃ t, A.trees.finish errors (.nonf e p) = .ok (errors, t) ∧ t.leaves = (PrecStack.nonf e p).leaves := by
  induction hp with
  | nilf => exact fun e errors => ⟨e, by rw [Args.finish], by simp [PrecStack.leaves]⟩
  | @inf bp op e3 r hr ih =>
    intro e errors
    obtain ⟨t, heq, hleaves⟩ := ih (A.trees.applyInfix op e3 e) errors
    refine ⟨t, by rw [Args.finish, heq], ?_⟩
    rw [hleaves]
    simp [PrecStack.leaves, Args.trees, OpTree.leaves]

theorem finish_ok (h : Running S) (errors : List (Error R)) : ∃ errors' t, A.trees.finish errors S = .ok (errors', t) ∧
    t.leaves = S.leaves ∧ errors <+: errors' := by
  cases h with
  | @nonf e p hp =>
    obtain ⟨t, heq, hleaves⟩ := finish_nonf_ok hp e errors
    exact ⟨errors, t, heq, hleaves, List.prefix_rfl⟩
  | @inf bp op e p hp =>
    obtain ⟨t, heq, hleaves⟩ := finish_nonf_ok (A := A) hp (A.trees.apply e op)
      (errors ++ [⟨A.trees.region op, A.trees.name ++ " ends with infix identifier: " ++
        A.trees.toString op⟩])
    refine ⟨_, t, by rw [Args.finish, heq], ?_, List.prefix_append _ _⟩
    rw [hleaves]
    simp [PrecStack.leaves, Args.trees, OpTree.leaves]

/-- **No list of items leads to a bug**, and the items of the tree are those of the list, in order. -/
theorem parse_ok {items : List α} (hne : items ≠ []) : ∃ errors t,
    A.trees.parse (items.map leaf) = .ok (errors, t) ∧ t.leaves = items := by
  cases items with
  | nil => exact absurd rfl hne
  | cons item items =>
    obtain ⟨errors₀, hstart, -⟩ := ensureNONf_ok (A := A) [] item (A.trees.fixval (leaf item)) .nilf true
    obtain ⟨errors₁, S, hfeed, hS, hleavesS, -⟩ := feed_ok (A := A) items errors₀
      (Running.nonf (e := leaf item) .nilf)
    obtain ⟨errors, t, hfinish, hleaves, -⟩ := finish_ok (A := A) hS errors₁
    refine ⟨errors, t, ?_, ?_⟩
    · rw [List.map_cons, Args.parse, Args.start, hstart, hfeed]
      exact hfinish
    · rw [hleaves, hleavesS]
      simp [PrecStack.leaves, OpTree.leaves]

end MLton.PrecedenceParse
