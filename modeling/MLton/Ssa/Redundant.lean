import MLton.Lib.PartitionRefinement
import MLton.Ssa.Scopes
import MLton.Ssa.TypeCheck

/-!
# Ssa/Redundant — the pass that merges formals and returns which are always equal

Every formal, and every position of what a function returns, is an element.  Elements of one type start
together, in each list of formals or returns on its own; the transfers of the program then say which
elements must be equal for others to be equal, and the classes are split until all of this holds.  Of
each class only the first element stays.
-/

namespace MLton.Ssa.Redundant

open PartitionRefinement

/-- A variable, or a position of what a function returns. -/
inductive Element where
  | var (x : Var)
  | ret (func : Func) (i : ℕ)
deriving DecidableEq, Repr

/-- What a list of elements belongs to. -/
inductive Owner where
  | args (func : Func)
  | label (l : Label)
  | returns (func : Func)
deriving DecidableEq, Repr

/-- `Eqrel`: elements in a row; their classes say which of them are equal. -/
abbrev Eqrel := List Element

/-! ## The elements -/

/-- `varEquiv`. -/
def varEquiv (xs : List Var) : Eqrel := xs.map .var

/-- `makeFormalsRel`. -/
def makeFormalsRel (xs : List (Var × Ty)) : Eqrel := xs.map fun xt => .var xt.1

/-- `labelInfo`. -/
def labelInfo (f : Function) (l : Label) : Eqrel := (f.block? l).elim [] fun b => makeFormalsRel b.args

/-- The field `return` of `funcInfo`. -/
def returnInfo (f : Function) : Option Eqrel :=
  f.returns.map fun ts => (List.range ts.length).map (.ret f.name)

/-- The elements that `Eqrel.fromTypes` makes, each with its owner and its type. -/
def positions (p : Program) : List (Element × Owner × Ty) :=
  p.functions.flatMap fun f =>
    f.args.map (fun xt => (.var xt.1, .args f.name, xt.2)) ++
    (f.returns.getD []).mapIdx (fun i t => (.ret f.name i, .returns f.name, t)) ++
    f.blocks.flatMap fun b => b.args.map fun xt => (.var xt.1, .label b.label, xt.2)

/-- The class an element is made in: that of its owner and type, or one of its own (`new1`). -/
def made (p : Program) (e : Element) : (Owner × Ty) ⊕ Element :=
  match (positions p).find? (·.1 = e) with
  | some q => .inl q.2
  | none => .inr e

/-! ## The constraints -/

/-- `refine`; refinements of fewer than two pairs are dropped. -/
def refine (coarse fine : Eqrel) : List (Refinement Element) :=
  let r := coarse.zip fine
  if 1 < r.length then [r] else []

/-- `unify`. -/
def unify (r r' : Eqrel) : List (Refinement Element) := refine r r' ++ refine r' r

/-- The refinements that a transfer adds. -/
def refinements (p : Program) (f : Function) : Transfer → List (Refinement Element)
  | .call args func ret =>
    match p.function? func with
    | none => []
    | some g =>
      refine (varEquiv args) (makeFormalsRel g.args) ++
        match ret with
        | .dead => []
        | .nonTail cont _ => (returnInfo g).elim [] fun e => unify e (labelInfo f cont)
        | .tail => ((returnInfo f).bind fun e => (returnInfo g).map (unify e)).getD []
  | .goto dst args => refine (varEquiv args) (labelInfo f dst)
  | .ret xs => refine (varEquiv xs) ((returnInfo f).getD [])
  | _ => []

/-- The elements that a transfer forces to be distinct. -/
def distinct (f : Function) : Transfer → Eqrel
  | .case _ (.con cases) _ => cases.flatMap fun arm => labelInfo f arm.2
  | _ => []

/-- The transfers of the program, with their functions. -/
def transfers (p : Program) : List (Function × Transfer) :=
  p.functions.flatMap fun f => f.blocks.map fun b => (f, b.transfer)

/-- The refinements, the last one first: `todo`. -/
def todo (p : Program) : List (Refinement Element) :=
  ((transfers p).flatMap fun ft => refinements p ft.1 ft.2).reverse

/-- The classes before the fixed point. -/
def start (p : Program) : Classes Element ((Owner × Ty) ⊕ Element) :=
  forceDistinct (.init (made p)) ((transfers p).flatMap fun ft => distinct ft.1 ft.2)

/-- The classes. -/
def classes (p : Program) : Classes Element ((Owner × Ty) ⊕ Element) :=
  fixedPoint ((todo p).flatten.length ^ 2 + 1) (todo p) (start p)

/-! ## The rewriting -/

/-- What becomes of an element. -/
inductive Red where
  | useful
  /-- The index it is the same as. -/
  | redundant (i : ℕ)
deriving DecidableEq, Repr

/-- What becomes of an element of class `c`, where `seen` are the classes of the elements before it. -/
def redOf {γ : Type} [DecidableEq γ] (seen : List γ) (c : γ) : Red :=
  match seen.findIdx? (· = c) with
  | none => .useful
  | some j => .redundant j

/-- `makeReds`, on the classes of the elements: the first element of a class represents it. -/
def makeReds {γ : Type} [DecidableEq γ] (r : List γ) : List Red :=
  r.mapIdx fun i c => redOf (r.take i) c

/-- `keepUseful`. -/
def keepUseful {α : Type} : List Red → List α → List α
  | .useful :: reds, x :: xs => x :: keepUseful reds xs
  | .redundant _ :: reds, _ :: xs => keepUseful reds xs
  | _, _ => []

/-- The field `argsRed`, for a list of formals. -/
def argsRed (p : Program) (xs : List (Var × Ty)) : List Red :=
  makeReds ((makeFormalsRel xs).map (classes p).classOf)

/-- The field `returnsRed`. -/
def returnsRed (p : Program) (f : Function) : List Red :=
  makeReds (((returnInfo f).getD []).map (classes p).classOf)

/-- The formals that stay: the second result of `redundantFormals`. -/
def keepFormals (p : Program) (xs : List (Var × Ty)) : List (Var × Ty) := keepUseful (argsRed p xs) xs

/-- The replacements that `redundantFormals` sets. -/
def replacements (p : Program) (xs : List (Var × Ty)) : List (Var × Var) :=
  (xs.zip (argsRed p xs)).filterMap fun
    | (_, .useful) => none
    | (xt, .redundant i) => xs[i]?.map fun yt => (xt.1, yt.1)

/-- `replacement`. -/
def replacement (p : Program) (x : Var) : Option Var :=
  ((p.functions.flatMap fun f =>
    replacements p f.args ++ f.blocks.flatMap fun b => replacements p b.args).find? (·.1 = x)).map Prod.snd

/-- `loopVar`. -/
def loopVar (p : Program) (x : Var) : Var := (replacement p x).getD x

/-- `loopVars`. -/
def loopVars (p : Program) (xs : List Var) : List Var := xs.map (loopVar p)

/-- The field `argsRed` of `funcReds`. -/
def funcReds (p : Program) (func : Func) : List Red :=
  (p.function? func).elim [] fun g => argsRed p g.args

/-- The field `argsRed` of `labelReds`. -/
def labelReds (p : Program) (f : Function) (l : Label) : List Red :=
  (f.block? l).elim [] fun b => argsRed p b.args

/-- The rewritten statement. -/
def rewriteStatement (p : Program) (s : Statement) : Statement :=
  { s with exp := s.exp.replaceVar (loopVar p) }

/-- The rewritten transfer of a block. -/
def rewriteTransfer (p : Program) (f : Function) : Transfer → Transfer
  | .bug => .bug
  | .call args func ret => .call (loopVars p (keepUseful (funcReds p func) args)) func ret
  | .case test cases default => .case (loopVar p test) cases default
  | .goto dst args => .goto dst (loopVars p (keepUseful (labelReds p f dst) args))
  | .raise xs => .raise (loopVars p xs)
  | .ret xs => .ret (loopVars p (keepUseful (returnsRed p f) xs))
  | .runtime prim args ret => .runtime prim (loopVars p args) ret

/-- The rewritten block. -/
def rewriteBlock (p : Program) (f : Function) (b : Block) : Block where
  args := keepFormals p b.args
  label := b.label
  statements := b.statements.map (rewriteStatement p)
  transfer := rewriteTransfer p f b.transfer

/-- The rewritten function. -/
def rewrite (p : Program) (f : Function) : Function :=
  { f with
    args := keepFormals p f.args
    blocks := f.blocks.map (rewriteBlock p f)
    returns := f.returns.map (keepUseful (returnsRed p f)) }

/-- `transform`. -/
def transform (p : Program) : Program :=
  { p with functions := (p.functions.map (rewrite p)).reverse }

end MLton.Ssa.Redundant

/-!
## Which elements the pass finds equal

`Flows` says, of every pair of lists that a transfer ties, that the elements of the second hold what
those of the first hold.  Two elements are `Told` apart when they belong to different lists or have
different types, when one is the argument of a constructor, or when what flows to them is told apart.
In a well scoped and well typed program, the classes of the pass are what is not told apart
(`classes_eq_iff`).
-/

namespace MLton.Ssa.Redundant

open PartitionRefinement

/-- The transfers of the program that tie two lists of elements: the second holds what the first does. -/
inductive Flows (p : Program) : Eqrel → Eqrel → Prop
  | call {f g : Function} {b : Block} {args : List Var} {func : Func} {k : Return} :
      f ∈ p.functions → b ∈ f.blocks → b.transfer = .call args func k → p.function? func = some g →
      Flows p (varEquiv args) (makeFormalsRel g.args)
  | returned {f g : Function} {b : Block} {args : List Var} {func : Func} {cont : Label}
      {handler : Handler} {e : Eqrel} : f ∈ p.functions → b ∈ f.blocks →
      b.transfer = .call args func (.nonTail cont handler) → p.function? func = some g →
      returnInfo g = some e → Flows p e (labelInfo f cont)
  | awaited {f g : Function} {b : Block} {args : List Var} {func : Func} {cont : Label}
      {handler : Handler} {e : Eqrel} : f ∈ p.functions → b ∈ f.blocks →
      b.transfer = .call args func (.nonTail cont handler) → p.function? func = some g →
      returnInfo g = some e → Flows p (labelInfo f cont) e
  | passedOn {f g : Function} {b : Block} {args : List Var} {func : Func} {e e' : Eqrel} :
      f ∈ p.functions → b ∈ f.blocks → b.transfer = .call args func .tail →
      p.function? func = some g → returnInfo f = some e → returnInfo g = some e' → Flows p e' e
  | passedBack {f g : Function} {b : Block} {args : List Var} {func : Func} {e e' : Eqrel} :
      f ∈ p.functions → b ∈ f.blocks → b.transfer = .call args func .tail →
      p.function? func = some g → returnInfo f = some e → returnInfo g = some e' → Flows p e e'
  | goto {f : Function} {b : Block} {dst : Label} {args : List Var} : f ∈ p.functions →
      b ∈ f.blocks → b.transfer = .goto dst args → Flows p (varEquiv args) (labelInfo f dst)
  | ret {f : Function} {b : Block} {xs : List Var} {e : Eqrel} : f ∈ p.functions → b ∈ f.blocks →
      b.transfer = .ret xs → returnInfo f = some e → Flows p (varEquiv xs) e

/-- The element is an argument that a case binds. -/
def Bound (p : Program) (e : Element) : Prop :=
  ∃ f ∈ p.functions, ∃ b ∈ f.blocks, ∃ test cs default, b.transfer = .case test (.con cs) default ∧
    ∃ arm ∈ cs, e ∈ labelInfo f arm.2

/-- Elements that may differ: they belong to different lists or have different types, a case binds one
of them, or what flows to them may differ. -/
inductive Told (p : Program) : Element → Element → Prop
  | made {e e' : Element} : made p e ≠ made p e' → Told p e e'
  | bound {e e' : Element} : Bound p e ∨ Bound p e' → e ≠ e' → Told p e e'
  | flow {coarse fine : Eqrel} {cf cf' : Element × Element} : Flows p coarse fine →
      cf ∈ coarse.zip fine → cf' ∈ coarse.zip fine → Told p cf.1 cf'.1 → Told p cf.2 cf'.2

/-! ## The constraints are the flows -/

section Constraints

variable {p : Program} {f : Function} {b : Block} {r : Refinement Element} {coarse fine e e' : Eqrel}

theorem mem_refine : r ∈ refine coarse fine ↔ r = coarse.zip fine ∧ 1 < r.length := by
  simp only [refine]
  split
  · next h => simpa using fun hr => hr ▸ h
  · next h => simpa using fun hr => hr ▸ Nat.le_of_not_lt h

theorem mem_unify : r ∈ unify e e' ↔ (r = e.zip e' ∨ r = e'.zip e) ∧ 1 < r.length := by
  rw [unify, List.mem_append, mem_refine, mem_refine, or_and_right]

theorem mem_todo : r ∈ todo p ↔
    ∃ f ∈ p.functions, ∃ b ∈ f.blocks, r ∈ refinements p f b.transfer := by
  simp only [todo, transfers, List.mem_reverse, List.mem_flatMap, List.mem_map, Prod.exists,
    Prod.mk.injEq]
  constructor
  · rintro ⟨f', tr, ⟨f, hf, b, hb, rfl, rfl⟩, hr⟩
    exact ⟨f, hf, b, hb, hr⟩
  · rintro ⟨f, hf, b, hb, hr⟩
    exact ⟨f, b.transfer, ⟨f, hf, b, hb, rfl, rfl⟩, hr⟩

theorem flows_of_mem_todo (h : r ∈ todo p) :
    ∃ coarse fine, Flows p coarse fine ∧ r = coarse.zip fine := by
  obtain ⟨f, hf, b, hb, h⟩ := mem_todo.mp h
  cases htr : b.transfer with
  | bug | case | raise | runtime => simp [refinements, htr] at h
  | goto dst args => exact ⟨_, _, .goto hf hb htr, (mem_refine.mp (by simpa [refinements, htr] using h)).1⟩
  | ret xs =>
    rw [htr] at h
    obtain ⟨rfl, hlen⟩ := mem_refine.mp h
    cases hret : returnInfo f with
    | none => simp [hret] at hlen
    | some e => exact ⟨_, _, .ret hf hb htr hret, rfl⟩
  | call args func k =>
    rw [htr, refinements] at h
    split at h
    · cases h
    next g hg =>
    obtain h | h := List.mem_append.mp h
    · exact ⟨_, _, .call hf hb htr hg, (mem_refine.mp h).1⟩
    cases k with
    | dead => cases h
    | nonTail cont handler =>
      cases hret : returnInfo g with
      | none => simp [hret] at h
      | some e =>
        rw [hret] at h
        obtain ⟨rfl | rfl, -⟩ := mem_unify.mp h
        · exact ⟨_, _, .returned hf hb htr hg hret, rfl⟩
        · exact ⟨_, _, .awaited hf hb htr hg hret, rfl⟩
    | tail =>
      cases hret : returnInfo f with
      | none => simp [hret] at h
      | some e =>
        cases hret' : returnInfo g with
        | none => simp [hret, hret'] at h
        | some e' =>
          simp only [hret, hret', Option.bind_some, Option.map_some, Option.getD_some] at h
          obtain ⟨rfl | rfl, -⟩ := mem_unify.mp h
          · exact ⟨_, _, .passedBack hf hb htr hg hret hret', rfl⟩
          · exact ⟨_, _, .passedOn hf hb htr hg hret hret', rfl⟩

theorem mem_todo_of_flows (h : Flows p coarse fine) (hlen : 1 < (coarse.zip fine).length) :
    coarse.zip fine ∈ todo p := by
  refine mem_todo.mpr ?_
  cases h with
  | call hf hb htr hg =>
    refine ⟨_, hf, _, hb, ?_⟩
    rw [htr, refinements, hg]
    exact List.mem_append_left _ (mem_refine.mpr ⟨rfl, hlen⟩)
  | returned hf hb htr hg hret =>
    refine ⟨_, hf, _, hb, ?_⟩
    rw [htr, refinements, hg]
    simp only [hret, Option.elim_some]
    exact List.mem_append_right _ (mem_unify.mpr ⟨.inl rfl, hlen⟩)
  | awaited hf hb htr hg hret =>
    refine ⟨_, hf, _, hb, ?_⟩
    rw [htr, refinements, hg]
    simp only [hret, Option.elim_some]
    exact List.mem_append_right _ (mem_unify.mpr ⟨.inr rfl, hlen⟩)
  | passedOn hf hb htr hg hret hret' =>
    refine ⟨_, hf, _, hb, ?_⟩
    rw [htr, refinements, hg]
    simp only [hret, hret', Option.bind_some, Option.map_some, Option.getD_some]
    exact List.mem_append_right _ (mem_unify.mpr ⟨.inr rfl, hlen⟩)
  | passedBack hf hb htr hg hret hret' =>
    refine ⟨_, hf, _, hb, ?_⟩
    rw [htr, refinements, hg]
    simp only [hret, hret', Option.bind_some, Option.map_some, Option.getD_some]
    exact List.mem_append_right _ (mem_unify.mpr ⟨.inl rfl, hlen⟩)
  | goto hf hb htr =>
    refine ⟨_, hf, _, hb, ?_⟩
    rw [htr]
    exact mem_refine.mpr ⟨rfl, hlen⟩
  | ret hf hb htr hret =>
    refine ⟨_, hf, _, hb, ?_⟩
    rw [htr, refinements, hret]
    exact mem_refine.mpr ⟨rfl, hlen⟩

theorem bound_iff {e : Element} :
    e ∈ ((transfers p).flatMap fun ft => distinct ft.1 ft.2) ↔ Bound p e := by
  simp only [transfers, List.mem_flatMap, List.mem_map, Bound]
  constructor
  · rintro ⟨_, ⟨f, hf, b, hb, rfl⟩, he⟩
    refine ⟨f, hf, b, hb, ?_⟩
    dsimp only at he
    unfold distinct at he
    split at he
    · next test cs default htr => exact ⟨test, cs, default, htr, List.mem_flatMap.mp he⟩
    · cases he
  · rintro ⟨f, hf, b, hb, test, cs, default, htr, he⟩
    refine ⟨_, ⟨f, hf, b, hb, rfl⟩, ?_⟩
    dsimp only
    rw [htr]
    exact List.mem_flatMap.mpr he

end Constraints

/-! ## The lists that elements belong to -/

section Positions

variable {p : Program} {G : List Var} {f g : Function} {b : Block} {l : Label} {e e' : Element}
  {o o' : Owner} {t t' : Ty} {es : Eqrel}

theorem mem_positions : (e, o, t) ∈ positions p ↔ ∃ f ∈ p.functions,
    (∃ x, (x, t) ∈ f.args ∧ e = .var x ∧ o = .args f.name) ∨
    (∃ i, (f.returns.getD [])[i]? = some t ∧ e = .ret f.name i ∧ o = .returns f.name) ∨
    ∃ b ∈ f.blocks, ∃ x, (x, t) ∈ b.args ∧ e = .var x ∧ o = .label b.label := by
  simp only [positions, List.mem_flatMap, List.mem_append, List.mem_map, List.mem_mapIdx,
    Prod.mk.injEq, Prod.exists, or_assoc]
  refine exists_congr fun f => and_congr_right fun _ => or_congr ?_ (or_congr ?_ ?_)
  · constructor
    · rintro ⟨x, t', hmem, rfl, rfl, rfl⟩
      exact ⟨x, hmem, rfl, rfl⟩
    · rintro ⟨x, hmem, rfl, rfl⟩
      exact ⟨x, t, hmem, rfl, rfl, rfl⟩
  · constructor
    · rintro ⟨i, hi, rfl, rfl, rfl⟩
      exact ⟨i, by simp [hi], rfl, rfl⟩
    · rintro ⟨i, hi, rfl, rfl⟩
      obtain ⟨hlt, rfl⟩ := List.getElem?_eq_some_iff.mp hi
      exact ⟨i, hlt, rfl, rfl, rfl⟩
  · refine exists_congr fun b => and_congr_right fun _ => ?_
    constructor
    · rintro ⟨x, t', hmem, rfl, rfl, rfl⟩
      exact ⟨x, hmem, rfl, rfl⟩
    · rintro ⟨x, hmem, rfl, rfl⟩
      exact ⟨x, t, hmem, rfl, rfl, rfl⟩

theorem made_of_mem (hunique : ∀ {o' t'}, (e, o', t') ∈ positions p → o' = o ∧ t' = t)
    (h : (e, o, t) ∈ positions p) : made p e = .inl (o, t) := by
  unfold made
  cases hfind : (positions p).find? (·.1 = e) with
  | none => exact absurd (List.find?_eq_none.mp hfind _ h) (by simp)
  | some q =>
    have hq : q.1 = e := by simpa using List.find?_some hfind
    obtain ⟨q, o', t'⟩ := q
    obtain rfl : q = e := hq
    obtain ⟨rfl, rfl⟩ := hunique (List.mem_of_find?_eq_some hfind)
    rfl

theorem mem_of_made (h : made p e = .inl (o, t)) : (e, o, t) ∈ positions p := by
  unfold made at h
  split at h
  · next q hfind =>
    have hq : q.1 = e := by simpa using List.find?_some hfind
    obtain ⟨q, o', t'⟩ := q
    obtain rfl : q = e := hq
    obtain ⟨rfl, rfl⟩ := Prod.mk.inj (Sum.inl.inj h)
    exact List.mem_of_find?_eq_some hfind
  · cases h

theorem eq_of_made_inr (h : made p e = .inr e') : e = e' := by
  unfold made at h
  split at h
  · cases h
  · exact Sum.inr.inj h

variable (hscoped : p.Scoped G)

include hscoped

theorem function_unique (hf : f ∈ p.functions) (hg : g ∈ p.functions) (h : f.name = g.name) : f = g :=
  List.inj_on_of_nodup_map hscoped.names hf hg h

theorem block_unique {b' : Block} (hf : f ∈ p.functions) (hg : g ∈ p.functions) (hb : b ∈ f.blocks)
    (hb' : b' ∈ g.blocks) (h : b.label = b'.label) : f = g ∧ b = b' := by
  obtain rfl := Fold.eq_of_nodup_flatMap hscoped.labels hf hg (List.mem_map_of_mem hb)
    (h ▸ List.mem_map_of_mem hb')
  exact ⟨rfl, List.inj_on_of_nodup_map (hscoped.functions f hf).labels hb hb' h⟩

theorem binds_formal (hf : f ∈ p.functions) (hb : b ∈ f.blocks) {x : Var} (hx : (x, t) ∈ b.args) :
    f.Binds x (b.label, 0) :=
  .formal ((hscoped.functions f hf).block?_of_mem hb) (List.mem_map.mpr ⟨_, hx, rfl⟩)

/-- **An element has one place**: one owner and one type. -/
theorem position_unique (h : (e, o, t) ∈ positions p) (h' : (e, o', t') ∈ positions p) :
    o = o' ∧ t = t' := by
  obtain ⟨f, hf, h⟩ := mem_positions.mp h
  obtain ⟨g, hg, h'⟩ := mem_positions.mp h'
  have hpair : ∀ {xts : List (Var × Ty)} {x}, (xts.map Prod.fst).Nodup → (x, t) ∈ xts →
      (x, t') ∈ xts → t = t' := fun hnodup hx hx' =>
    congrArg Prod.snd (List.inj_on_of_nodup_map hnodup hx hx' rfl)
  obtain ⟨x, hx, rfl, rfl⟩ | ⟨i, hi, rfl, rfl⟩ | ⟨b, hb, x, hx, rfl, rfl⟩ := h <;>
    obtain ⟨y, hy, heq, rfl⟩ | ⟨j, hj, heq, rfl⟩ | ⟨b', hb', y, hy, heq, rfl⟩ := h'
  · obtain rfl := Element.var.inj heq
    obtain rfl := hscoped.argsApart f hf g hg (List.mem_map.mpr ⟨_, hx, rfl⟩)
      (List.mem_map.mpr ⟨_, hy, rfl⟩)
    exact ⟨rfl, hpair (hscoped.functions f hf).args hx hy⟩
  · cases heq
  · obtain rfl := Element.var.inj heq
    exact absurd (.inr (List.mem_map.mpr ⟨_, hx, rfl⟩))
      (hscoped.args g hg f hf (binds_formal hscoped hg hb' hy))
  · cases heq
  · obtain ⟨hname, rfl⟩ := Element.ret.inj heq
    obtain rfl := function_unique hscoped hf hg hname
    exact ⟨rfl, Option.some.inj (hi.symm.trans hj)⟩
  · cases heq
  · obtain rfl := Element.var.inj heq
    exact absurd (.inr (List.mem_map.mpr ⟨_, hy, rfl⟩))
      (hscoped.args f hf g hg (binds_formal hscoped hf hb hx))
  · cases heq
  · obtain rfl := Element.var.inj heq
    have hbinds := binds_formal hscoped hf hb hx
    have hbinds' := binds_formal hscoped hg hb' hy
    obtain rfl := hscoped.apart f hf g hg hbinds hbinds'
    have hlabel := congrArg Prod.fst ((hscoped.functions f hf).unique (.inl hbinds) (.inl hbinds'))
    obtain ⟨-, rfl⟩ := block_unique hscoped hf hf hb hb' hlabel
    exact ⟨rfl, hpair ((hscoped.functions f hf).formals ((hscoped.functions f hf).block?_of_mem hb)) hx hy⟩

/-- A formal is no global. -/
theorem notMem_globals {x : Var} (h : (.var x, o, t) ∈ positions p) : x ∉ G := by
  obtain ⟨f, hf, ⟨y, hy, heq, -⟩ | ⟨_, _, heq, -⟩ | ⟨b, hb, y, hy, heq, -⟩⟩ := mem_positions.mp h
  · obtain rfl := Element.var.inj heq
    exact hscoped.globals f hf (List.mem_map.mpr ⟨_, hy, rfl⟩)
  · cases heq
  · obtain rfl := Element.var.inj heq
    exact fun hG => hscoped.args f hf f hf (binds_formal hscoped hf hb hy) (.inl hG)

/-- A formal is bound by no statement. -/
theorem not_binds_statement {x : Var} {i : ℕ} (h : (.var x, o, t) ∈ positions p)
    (hg : g ∈ p.functions) : ¬ g.Binds x (l, i + 1) := by
  intro hbinds
  obtain ⟨f, hf, ⟨y, hy, heq, -⟩ | ⟨_, _, heq, -⟩ | ⟨b, hb, y, hy, heq, -⟩⟩ := mem_positions.mp h
  · obtain rfl := Element.var.inj heq
    exact hscoped.args g hg f hf hbinds (.inr (List.mem_map.mpr ⟨_, hy, rfl⟩))
  · cases heq
  · obtain rfl := Element.var.inj heq
    have hbinds' := binds_formal hscoped hf hb hy
    obtain rfl := hscoped.apart f hf g hg hbinds' hbinds
    cases (hscoped.functions f hf).unique (.inl hbinds) (.inl hbinds')

theorem made_eq (h : (e, o, t) ∈ positions p) : made p e = .inl (o, t) :=
  made_of_mem (fun h' => position_unique hscoped h' h) h

/-- The elements of the list are those that belong to it. -/
def Owned (p : Program) (o : Owner) (es : Eqrel) : Prop :=
  es.Nodup ∧ ∀ e, e ∈ es ↔ ∃ t, (e, o, t) ∈ positions p

theorem owned_args (hf : f ∈ p.functions) : Owned p (.args f.name) (makeFormalsRel f.args) := by
  refine ⟨?_, fun e => ⟨fun he => ?_, fun ⟨t, ht⟩ => ?_⟩⟩
  · have h := (hscoped.functions f hf).args.map (f := Element.var) fun _ _ => Element.var.inj
    rwa [List.map_map] at h
  · obtain ⟨⟨x, t⟩, hx, rfl⟩ := List.mem_map.mp he
    exact ⟨t, mem_positions.mpr ⟨f, hf, .inl ⟨x, hx, rfl, rfl⟩⟩⟩
  · obtain ⟨g, hg, ⟨x, hx, rfl, ho⟩ | ⟨_, _, _, ho⟩ | ⟨_, _, _, _, _, ho⟩⟩ := mem_positions.mp ht
    · obtain rfl := function_unique hscoped hf hg (Owner.args.inj ho)
      exact List.mem_map.mpr ⟨_, hx, rfl⟩
    · cases ho
    · cases ho

theorem owned_label (hf : f ∈ p.functions) (hb : f.block? l = some b) :
    Owned p (.label l) (labelInfo f l) := by
  have hmem := Function.block?_mem hb
  obtain rfl := Function.block?_label hb
  have hinfo : labelInfo f b.label = makeFormalsRel b.args := by rw [labelInfo, hb]; rfl
  rw [hinfo]
  refine ⟨?_, fun e => ⟨fun he => ?_, fun ⟨t, ht⟩ => ?_⟩⟩
  · have h := ((hscoped.functions f hf).formals hb).map (f := Element.var) fun _ _ => Element.var.inj
    rwa [List.map_map] at h
  · obtain ⟨⟨x, t⟩, hx, rfl⟩ := List.mem_map.mp he
    exact ⟨t, mem_positions.mpr ⟨f, hf, .inr (.inr ⟨b, hmem, x, hx, rfl, rfl⟩)⟩⟩
  · obtain ⟨g, hg, ⟨_, _, _, ho⟩ | ⟨_, _, _, ho⟩ | ⟨b', hb', x, hx, rfl, ho⟩⟩ := mem_positions.mp ht
    · cases ho
    · cases ho
    · obtain ⟨-, rfl⟩ := block_unique hscoped hf hg hmem hb' (Owner.label.inj ho)
      exact List.mem_map.mpr ⟨_, hx, rfl⟩

theorem owned_returns (hf : f ∈ p.functions) (hret : returnInfo f = some es) :
    Owned p (.returns f.name) es := by
  obtain ⟨ts, hts, rfl⟩ := Option.map_eq_some_iff.mp hret
  refine ⟨List.nodup_range.map fun _ _ h => (Element.ret.inj h).2, fun e => ⟨fun he => ?_, fun ⟨t, ht⟩ => ?_⟩⟩
  · obtain ⟨i, hi, rfl⟩ := List.mem_map.mp he
    have hlt := List.mem_range.mp hi
    exact ⟨ts.get ⟨i, hlt⟩, mem_positions.mpr ⟨f, hf, .inr (.inl ⟨i, by simp [hts], rfl, rfl⟩)⟩⟩
  · obtain ⟨g, hg, ⟨_, _, _, ho⟩ | ⟨i, hi, rfl, ho⟩ | ⟨_, _, _, _, _, ho⟩⟩ := mem_positions.mp ht
    · cases ho
    · obtain rfl := function_unique hscoped hf hg (Owner.returns.inj ho)
      rw [hts] at hi
      exact List.mem_map.mpr ⟨i, List.mem_range.mpr (List.getElem?_eq_some_iff.mp hi).1, rfl⟩
    · cases ho

/-- What is made in the class of an element of a list belongs to the list. -/
theorem Owned.mem_of_made_eq (h : Owned p o es) (he : e ∈ es) (hmade : made p e' = made p e) : e' ∈ es := by
  obtain ⟨t, ht⟩ := (h.2 e).mp he
  exact (h.2 e').mpr ⟨t, mem_of_made (hmade.trans (made_eq hscoped ht))⟩

end Positions

/-! ## The classes -/

section Classes

variable {p : Program} {G : List Var} {S : Signatures} {τ : Types} {f : Function}
  {coarse fine : Eqrel} {e e' : Element} {r : Refinement Element}

theorem length_labelInfo {l : Label} {ts : List Ty} (h : f.Formals l ts) :
    (labelInfo f l).length = ts.length := by
  obtain ⟨b, hb, rfl⟩ := h
  simp [labelInfo, hb, makeFormalsRel]

theorem length_varEquiv {xs : List Var} {ts : List Ty} (h : τ.all xs = some ts) :
    (varEquiv xs).length = ts.length := by
  rw [varEquiv, List.length_map]
  exact (Fold.mapM_eq_some.mp h).length_eq

theorem length_of_returnInfo {ts : List Ty} {es : Eqrel} (h : returnInfo f = some es)
    (hts : f.returns = some ts) : es.length = ts.length := by
  obtain ⟨ts', hts', rfl⟩ := Option.map_eq_some_iff.mp h
  obtain rfl := Option.some.inj (hts.symm.trans hts')
  simp

theorem exists_returnInfo {ts : List Ty} (h : f.returns = some ts) : ∃ es, returnInfo f = some es :=
  ⟨_, by rw [returnInfo, h]; rfl⟩

theorem returns_of_returnInfo {es : Eqrel} (h : returnInfo f = some es) : ∃ ts, f.returns = some ts := by
  obtain ⟨ts, hts, -⟩ := Option.map_eq_some_iff.mp h
  exact ⟨ts, hts⟩

/-- The two lists of a flow are equally long. -/
theorem length_of_flows (hagree : p.Agrees S τ) (h : Flows p coarse fine) :
    coarse.length = fine.length := by
  cases h with
  | call hf hb htr hg =>
    obtain ⟨callee, hcallee, hargs, -⟩ := htr ▸ ((hagree _ hf).2 _ hb).1
    obtain rfl := Option.some.inj (hg.symm.trans hcallee)
    rw [length_varEquiv hargs, makeFormalsRel, List.length_map, List.length_map]
  | returned hf hb htr hg hret | awaited hf hb htr hg hret =>
    obtain ⟨callee, hcallee, -, hk⟩ := htr ▸ ((hagree _ hf).2 _ hb).1
    obtain rfl := Option.some.inj (hg.symm.trans hcallee)
    obtain ⟨ts, hts⟩ := returns_of_returnInfo hret
    rw [length_of_returnInfo hret hts, length_labelInfo (hk.1 ts hts)]
  | passedOn hf hb htr hg hret hret' | passedBack hf hb htr hg hret hret' =>
    obtain ⟨callee, hcallee, -, hk⟩ := htr ▸ ((hagree _ hf).2 _ hb).1
    obtain rfl := Option.some.inj (hg.symm.trans hcallee)
    obtain ⟨ts, hts⟩ := returns_of_returnInfo hret'
    rw [length_of_returnInfo hret' hts, length_of_returnInfo hret (hk.1 ts hts)]
  | goto hf hb htr =>
    obtain ⟨ts, hts, hl⟩ := htr ▸ ((hagree _ hf).2 _ hb).1
    rw [length_varEquiv hts, length_labelInfo hl]
  | ret hf hb htr hret =>
    obtain ⟨ts, hts, hl⟩ := htr ▸ ((hagree _ hf).2 _ hb).1
    rw [length_varEquiv hts, length_of_returnInfo hret hl]

/-- What is flown to is the list of one owner. -/
theorem owned_of_flows (hscoped : p.Scoped G) (h : Flows p coarse fine) :
    ∃ o, Owned p o fine := by
  have htarget : ∀ {f : Function} {b l}, f ∈ p.functions → b ∈ f.blocks → l ∈ b.transfer.labels →
      ∃ o, Owned p o (labelInfo f l) := by
    intro f b l hf hb hl
    have hfun := hscoped.functions f hf
    obtain ⟨b', hb'⟩ := hfun.targets (hfun.block?_of_mem hb) l hl
    exact ⟨_, owned_label hscoped hf hb'⟩
  cases h with
  | call hf hb htr hg => exact ⟨_, owned_args hscoped (Program.function?_mem hg)⟩
  | returned hf hb htr hg hret =>
    exact htarget hf hb (by simp [htr, Transfer.labels, Return.labels])
  | awaited hf hb htr hg hret => exact ⟨_, owned_returns hscoped (Program.function?_mem hg) hret⟩
  | passedOn hf hb htr hg hret hret' => exact ⟨_, owned_returns hscoped hf hret⟩
  | passedBack hf hb htr hg hret hret' =>
    exact ⟨_, owned_returns hscoped (Program.function?_mem hg) hret'⟩
  | goto hf hb htr => exact htarget hf hb (by simp [htr, Transfer.labels])
  | ret hf hb htr hret => exact ⟨_, owned_returns hscoped hf hret⟩

theorem map_snd_of_flows (hagree : p.Agrees S τ) (h : Flows p coarse fine) :
    (coarse.zip fine).map Prod.snd = fine :=
  List.map_snd_zip (length_of_flows hagree h).ge

theorem fresh_start (p : Program) : Fresh (start p) := (fresh_init _).forceDistinct

/-- The classes at the start. -/
theorem start_eq_iff : (start p).classOf e = (start p).classOf e' ↔
    e = e' ∨ (made p e = made p e' ∧ ¬ Bound p e ∧ ¬ Bound p e') := by
  constructor
  · intro h
    obtain h | ⟨h, he, he'⟩ := eq_of_forceDistinct (fresh_init _) h
    · exact .inl h
    · exact .inr ⟨Sum.inl.inj h, fun hb => he (bound_iff.mpr hb), fun hb => he' (bound_iff.mpr hb)⟩
  · rintro (rfl | ⟨h, he, he'⟩)
    · rfl
    · have hold : ∀ {e}, ¬ Bound p e → (start p).classOf e = .inl (made p e) := by
        intro e he
        rw [start, forceDistinct_eq, classOf_setNews_of_notMem]
        · rfl
        · rintro s hs hes
          obtain ⟨x, hx, rfl⟩ := List.mem_map.mp hs
          exact he (bound_iff.mp (List.mem_singleton.mp hes ▸ hx))
      rw [hold he, hold he', h]

variable (hscoped : p.Scoped G) (hagree : p.Agrees S τ)

include hscoped hagree

theorem fine_of_todo (hr : r ∈ todo p) : (r.map Prod.snd).Nodup := by
  obtain ⟨coarse, fine, hflows, rfl⟩ := flows_of_mem_todo hr
  obtain ⟨o, ho⟩ := owned_of_flows hscoped hflows
  rw [map_snd_of_flows hagree hflows]
  exact ho.1

theorem whole_of_todo (hr : r ∈ todo p) : Whole (start p) r := by
  obtain ⟨coarse, fine, hflows, rfl⟩ := flows_of_mem_todo hr
  obtain ⟨o, ho⟩ := owned_of_flows hscoped hflows
  have hsnd := map_snd_of_flows hagree hflows
  intro cf hcf e he
  have hmem : cf.2 ∈ fine := hsnd ▸ List.mem_map_of_mem hcf
  have he : e ∈ fine := by
    obtain rfl | ⟨hmade, -⟩ := start_eq_iff.mp he
    · exact hmem
    · exact ho.mem_of_made_eq hscoped hmem hmade
  rw [← hsnd] at he
  exact List.mem_map.mp he

theorem classes_holds (hr : r ∈ todo p) : Holds (classes p) r :=
  fixedPoint_holds (fresh_start p) (fun _ => fine_of_todo hscoped hagree)
    (fun _ => whole_of_todo hscoped hagree) (Nat.lt_succ_self _) hr

/-- **The classes of the pass**: elements stay together exactly when nothing tells them apart. -/
theorem classes_eq_iff : (classes p).classOf e = (classes p).classOf e' ↔ ¬ Told p e e' := by
  have hspec : ∀ {e e'}, (classes p).classOf e = (classes p).classOf e' ↔
      ¬ ToldApart (start p) (todo p) e e' :=
    fixedPoint_spec (fresh_start p) (fun _ => fine_of_todo hscoped hagree)
      (fun _ => whole_of_todo hscoped hagree) (Nat.lt_succ_self _)
  constructor
  · intro heq htold
    induction htold with
    | made hne =>
      refine hspec.mp heq (.start fun h => ?_)
      obtain rfl | ⟨h, -⟩ := start_eq_iff.mp h
      · exact hne rfl
      · exact hne h
    | bound hb hne =>
      refine hspec.mp heq (.start fun h => ?_)
      obtain h | ⟨-, he, he'⟩ := start_eq_iff.mp h
      · exact hne h
      · exact hb.elim he he'
    | @flow coarse fine cf cf' hflows hcf hcf' _ ih =>
      refine ih ?_
      obtain hlen | hlen := Nat.lt_or_ge 1 (coarse.zip fine).length
      · exact classes_holds hscoped hagree (mem_todo_of_flows hflows hlen) cf hcf cf' hcf' heq
      · rw [eq_of_length_le_one hlen hcf hcf']
  · refine fun hnot => hspec.mpr fun htold => hnot ?_
    clear hnot
    induction htold with
    | @start e e' hne =>
      have hne' : e ≠ e' := fun h => hne (h ▸ rfl)
      by_cases hmade : made p e = made p e'
      · refine .bound ?_ hne'
        by_contra hb
        exact hne (start_eq_iff.mpr (.inr ⟨hmade, fun h => hb (.inl h), fun h => hb (.inr h)⟩))
      · exact .made hmade
    | step hr hcf hcf' _ ih =>
      obtain ⟨coarse, fine, hflows, rfl⟩ := flows_of_mem_todo hr
      exact .flow hflows hcf hcf' ih

theorem made_of_classes (h : (classes p).classOf e = (classes p).classOf e') : made p e = made p e' :=
  by_contra fun hne => (classes_eq_iff hscoped hagree).mp h (.made hne)

theorem eq_of_bound (hb : Bound p e) (h : (classes p).classOf e = (classes p).classOf e') : e = e' :=
  by_contra fun hne => (classes_eq_iff hscoped hagree).mp h (.bound (.inl hb) hne)

/-- Different elements of one class belong to one list. -/
theorem owner_of_classes (h : (classes p).classOf e = (classes p).classOf e') (hne : e ≠ e') :
    ∃ o t, (e, o, t) ∈ positions p ∧ (e', o, t) ∈ positions p := by
  have hmade := made_of_classes hscoped hagree h
  cases hm : made p e with
  | inr e₁ => exact absurd ((eq_of_made_inr hm).trans (eq_of_made_inr (hmade ▸ hm)).symm) hne
  | inl ot => exact ⟨ot.1, ot.2, mem_of_made hm, mem_of_made (hmade ▸ hm)⟩

/-- Elements of one class hold what elements of one class hold. -/
theorem classes_of_flows {cf cf' : Element × Element} (h : Flows p coarse fine)
    (hcf : cf ∈ coarse.zip fine) (hcf' : cf' ∈ coarse.zip fine)
    (heq : (classes p).classOf cf.2 = (classes p).classOf cf'.2) :
    (classes p).classOf cf.1 = (classes p).classOf cf'.1 := by
  refine (classes_eq_iff hscoped hagree).mpr fun htold => ?_
  exact (classes_eq_iff hscoped hagree).mp heq (.flow h hcf hcf' htold)

end Classes

end MLton.Ssa.Redundant
