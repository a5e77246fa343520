import MLton.Machinery.Dominance
import MLton.Machinery.Fold
import MLton.Machinery.Worklist
import MLton.Rssa.Tree

/-!
# Rssa/Live — liveness, one variable at a time

Each block has a node for its body and, if it has formals, one in front of it.  A walk over the function
collects the edges between nodes, and where each variable is defined and used.  Then each variable spreads
back from where it is used, up to where it is defined; as the variables are taken one after the other, the
last variable of a buffer tells whether the one at hand is in it.
-/

namespace MLton.Rssa

open Worklist

/-- `LiveInfo.t`: the function's own, those of formals and those of bodies. -/
inductive LiveInfo where
  | head
  | arg (l : Label)
  | body (l : Label)
deriving DecidableEq

namespace Block

/-- `bodyInfo`. -/
def bodyInfo (b : Block) : LiveInfo := .body b.label

/-- `argInfo`, which is `bodyInfo` if there are no formals. -/
def argInfo (b : Block) : LiveInfo := if b.args.isEmpty then b.bodyInfo else .arg b.label

end Block

/-- `Handler.foreachLabel`, of the handler of a continuation. -/
def Kind.labels : Kind → List Label
  | cont (.handle l) => [l]
  | _ => []

namespace Live

/-- `defuse`. -/
inductive DefUse (α : Type) where
  | define (b : LiveInfo)
  | use (a : α) (b : LiveInfo)

/-- What the walk over the function does. -/
inductive Action where
  | edge (b b' : LiveInfo)
  | define (x : Var) (b : LiveInfo)
  | use (x : Var) (b : LiveInfo)
  | handlerCode (du : DefUse Label)
  | handlerLink (du : DefUse Unit)

/-- What the walk collects. -/
structure Info where
  preds : LiveInfo → List LiveInfo
  allVars : List Var
  defined : Var → Option LiveInfo
  used : Var → List LiveInfo
  handlerCode : List (DefUse Label)
  handlerLink : List (DefUse Unit)

/-- Nothing. -/
def Info.empty : Info := ⟨fun _ => [], [], fun _ => none, fun _ => [], [], []⟩

section Walk

variable (f : Function) (shouldConsider : Var → Bool)

/-- `addEdge`, `setDefined` and `use`, and the pushes on the lists for handlers. -/
def Info.act (s : Info) : Action → Info
  | .edge b b' =>
    if b ∈ s.preds b' then s else { s with preds := Function.update s.preds b' (b :: s.preds b') }
  | .define x b =>
    if shouldConsider x then
      { s with allVars := x :: s.allVars, defined := Function.update s.defined x (some b) }
    else s
  | .use x b =>
    if shouldConsider x then
      if (s.used x).head? = some b then s
      else { s with used := Function.update s.used x (b :: s.used x) }
    else s
  | .handlerCode du => { s with handlerCode := du :: s.handlerCode }
  | .handlerLink du => { s with handlerLink := du :: s.handlerLink }

/-- `goto`. -/
def goto (b : LiveInfo) (l : Label) : List Action := (f.block? l).toList.map fun b' => .edge b b'.argInfo

/-- `label`. -/
def label (b : LiveInfo) (l : Label) : List Action :=
  match (f.block? l).map Block.kind with
  | some .handler => [.handlerCode (.use l b)]
  | _ => goto f b l

/-- The statements that set handler slots. -/
def slots (b : LiveInfo) : Statement → List Action
  | .setExnStackSlot => [.handlerLink (.use () b)]
  | .setHandler _ => [.handlerCode (.define b)]
  | .setSlotExnStack => [.handlerLink (.define b)]
  | _ => []

/-- What the walk does at a statement. -/
def visitStatement (b : LiveInfo) (s : Statement) : List Action :=
  s.uses.map (.use · b) ++ s.defs.map (fun d => .define d.1 b) ++ slots b s

/-- What the walk does at a block. -/
def visitBlock (B : Block) : List Action :=
  B.args.map (fun d => .define d.1 B.argInfo) ++ B.kind.labels.flatMap (goto f B.bodyInfo) ++
    B.statements.flatMap (visitStatement B.bodyInfo) ++ B.transfer.labels.flatMap (label f B.bodyInfo) ++
    B.transfer.uses.map (.use · B.bodyInfo)

/-- The walk. -/
def actions : List Action :=
  f.blocks.flatMap (fun B => if B.args.isEmpty then [] else [.edge B.argInfo B.bodyInfo]) ++
    f.args.map (fun d => .define d.1 .head) ++ f.blocks.flatMap (visitBlock f)

/-- What the walk collects. -/
def collect : Info := (actions f).foldl (Info.act shouldConsider) .empty

/-- The nodes. -/
def nodes : List LiveInfo := .head :: f.blocks.flatMap fun B => [.arg B.label, .body B.label]

end Walk

/-! ## Spreading -/

/-- The variables at each node. -/
abbrev Buffers := LiveInfo → List Var

/-- `processVar`; `valOf` raises `Option`. -/
def processVar (shouldConsider : Var → Bool) (info : Info) (n : ℕ) (live : Buffers) (x : Var) :
    Option Buffers :=
  if shouldConsider x then do
    let defined ← info.defined x
    let marked := fun (live : Buffers) (b : LiveInfo) => decide ((live b).getLast? = some x)
    let mark := fun (live : Buffers) (b : LiveInfo) => Function.update live b (live b ++ [x])
    loop info.preds (· = defined) marked mark n
      ((info.used x).foldl (consider (· = defined) marked mark) (live, []))
  else some live

/-- The `foldr` of `handlerLink`: the definitions, what is live and what is to do. -/
def handlerStart {α : Type} (defuse : List (DefUse α)) :
    List LiveInfo × (LiveInfo → Option α) × List (α × LiveInfo) :=
  defuse.foldr (fun du (defs, live, todo) =>
    match du with
    | .define b => (b :: defs, live, todo)
    | .use a b =>
      if defs.head? = some b then (defs, live, todo)
      else (defs, Function.update live b (some a), (a, b) :: todo)) ([], fun _ => none, [])

/-- `handlerLink`. -/
def handlerLink {α : Type} (preds : LiveInfo → List LiveInfo) (n : ℕ) (defuse : List (DefUse α)) :
    Option (LiveInfo → Option α) :=
  let (defs, live, todo) := handlerStart defuse
  loop (fun p : α × LiveInfo => (preds p.2).map (p.1, ·)) (fun p => decide (p.2 ∈ defs))
    (fun (live : LiveInfo → Option α) p => (live p.2).isSome) (fun live p => Function.update live p.2 (some p.1))
    (n + defuse.length) (live, todo)

/-- What `labelLive` returns. -/
structure LabelLive where
  begin : List Var
  beginNoFormals : List Var
  handler : Option Label
  link : Bool

/-- `live`; `labelInfo` raises if some label has no block. -/
def live (f : Function) (shouldConsider : Var → Bool) : Option (Label → Option LabelLive) :=
  if f.blocks.all fun B => (B.kind.labels ++ B.transfer.labels).all fun l => (f.block? l).isSome then do
    let info := collect f shouldConsider
    let n := (nodes f).length
    let live ← info.allVars.foldlM (processVar shouldConsider info n) fun _ => []
    let handler ← handlerLink info.preds n info.handlerCode
    let link ← handlerLink info.preds n info.handlerLink
    pure fun l => (f.block? l).map fun B =>
      { begin := live B.bodyInfo
        beginNoFormals := live B.argInfo
        handler := handler B.bodyInfo
        link := (link B.bodyInfo).isSome }
  else none

end Live

end MLton.Rssa

/-!
## What is live at a point of a function

A point of a function is in front of the formals of a block, or behind some of its statements.  A variable
is live there if it may be used before it is defined.  In static single assignment form, what a function
defines is live only where every path from the start has defined it (`LiveAt.not_avoids`).
-/

namespace MLton.Rssa

open MLton.Dominance

/-- A block, and how much of it is done: nothing, its formals, its formals and some statements. -/
abbrev Point := Label × ℕ

/-- What `transferOk` and `callIsOk` ask of the blocks that a transfer goes to. -/
inductive Transfer.KindsOk (kind : Label → Option Kind) : Transfer → Prop
  | ccall {args : List Operand} {func : CFunction} {ret : Option Label} :
      (∀ l ∈ ret, kind l = some (.creturn func)) → KindsOk kind (.ccall args func ret)
  | nonTail {args : List Operand} {func : Func} {c : Label} {h : Handler} : kind c = some (.cont h) →
      (∀ l ∈ h.labels, kind l = some .handler) → KindsOk kind (.call args func (.nonTail c h))
  | call {args : List Operand} {func : Func} {ret : Return} : ret.labels = [] →
      KindsOk kind (.call args func ret)
  | goto {args : List Operand} {l : Label} : kind l = some .jump → KindsOk kind (.goto args l)
  | raise {args : List Operand} : KindsOk kind (.raise args)
  | ret {args : List Operand} : KindsOk kind (.ret args)
  | switch {s : Switch} : (∀ l ∈ s.labels, kind l = some .jump) → KindsOk kind (.switch s)

namespace Transfer.KindsOk

variable {kind : Label → Option Kind} {t : Transfer} {c l : Label}

/-- What goes to a continuation goes to its handler. -/
theorem handler_mem (ht : t.KindsOk kind) (hc : c ∈ t.labels) (hkind : kind c = some (.cont (.handle l))) :
    l ∈ t.labels := by
  cases ht with
  | ccall hret => cases hkind.symm.trans (hret c (Option.mem_toList.mp hc))
  | @nonTail _ _ c' h hc' hh =>
    obtain rfl | hc := List.mem_cons.mp hc
    · obtain rfl := Kind.cont.inj (Option.some.inj (hc'.symm.trans hkind))
      exact List.mem_cons_of_mem _ (List.mem_singleton_self l)
    · cases hkind.symm.trans (hh c hc)
  | @call _ _ ret hret =>
    rw [labels, hret] at hc
    cases hc
  | goto hl =>
    obtain rfl := List.mem_singleton.mp hc
    cases hkind.symm.trans hl
  | raise => cases hc
  | ret => cases hc
  | switch hs => cases hkind.symm.trans (hs c hc)

/-- What goes to a handler goes to a continuation with the handler. -/
theorem exists_cont (ht : t.KindsOk kind) (hl : l ∈ t.labels) (hkind : kind l = some .handler) :
    ∃ c ∈ t.labels, kind c = some (.cont (.handle l)) := by
  cases ht with
  | ccall hret => cases hkind.symm.trans (hret l (Option.mem_toList.mp hl))
  | @nonTail _ _ c h hc hh =>
    obtain rfl | hl := List.mem_cons.mp hl
    · cases hkind.symm.trans hc
    · refine ⟨c, List.mem_cons_self, ?_⟩
      cases h with
      | caller => cases hl
      | dead => cases hl
      | handle l' =>
        obtain rfl := List.mem_singleton.mp hl
        exact hc
  | @call _ _ ret hret =>
    rw [labels, hret] at hl
    cases hl
  | goto hl' =>
    obtain rfl := List.mem_singleton.mp hl
    cases hkind.symm.trans hl'
  | raise => cases hl
  | ret => cases hl
  | switch hs => cases hkind.symm.trans (hs l hl)

end Transfer.KindsOk

/-- What a block defines, and at which points. -/
def Block.definitions (b : Block) : List (Var × Point) :=
  b.args.map (fun d => (d.1, b.label, 1)) ++
    b.statements.zipIdx.flatMap fun si => si.1.defs.map fun d => (d.1, b.label, si.2 + 2)

namespace Function

/-- The moves from point to point. -/
inductive Moves (f : Function) : Point → Point → Prop
  | formals {l : Label} {b : Block} : f.block? l = some b → Moves f (l, 0) (l, 1)
  | statement {l : Label} {b : Block} {i : ℕ} :
      f.block? l = some b → i < b.statements.length → Moves f (l, i + 1) (l, i + 2)
  | transfer {l l' : Label} {b : Block} :
      f.block? l = some b → l' ∈ b.transfer.labels → Moves f (l, b.statements.length + 1) (l', 0)

/-- The point control enters at. -/
def entry (f : Function) : Point := (f.start, 0)

/-- Control can get to the point. -/
abbrev Reachable (f : Function) : Point → Prop := Relation.ReflTransGen f.Moves f.entry

/-- The move to the point binds the variable: as a formal of the block, or by the last statement. -/
inductive Binds (f : Function) (x : Var) : Point → Prop
  | formal {l : Label} {b : Block} : f.block? l = some b → x ∈ b.args.map Prod.fst → Binds f x (l, 1)
  | statement {l : Label} {b : Block} {i : ℕ} {s : Statement} : f.block? l = some b →
      b.statements[i]? = some s → x ∈ s.defs.map Prod.fst → Binds f x (l, i + 2)

/-- The variable is defined from this point on. -/
def Defines (f : Function) (x : Var) (pt : Point) : Prop :=
  f.Binds x pt ∨ (x ∈ f.args.map Prod.fst ∧ pt = f.entry)

/-- What comes next at the point reads the variable. -/
inductive Uses (f : Function) (x : Var) : Point → Prop
  | statement {l : Label} {b : Block} {i : ℕ} {s : Statement} : f.block? l = some b →
      b.statements[i]? = some s → x ∈ s.uses → Uses f x (l, i + 1)
  | transfer {l : Label} {b : Block} : f.block? l = some b → x ∈ b.transfer.uses →
      Uses f x (l, b.statements.length + 1)

/-- **The variable is live**: some path goes to a use of it and does not bind it on the way.  Behind its
formals, a continuation has the handler as a successor too. -/
inductive LiveAt (f : Function) (x : Var) : Point → Prop
  | use {pt : Point} : f.Uses x pt → LiveAt f x pt
  | move {pt pt' : Point} : f.Moves pt pt' → ¬ f.Binds x pt' → LiveAt f x pt' → LiveAt f x pt
  | handler {l h : Label} {b : Block} : f.block? l = some b → b.kind = .cont (.handle h) →
      LiveAt f x (h, 0) → LiveAt f x (l, 1)

/-- What the function defines, and at which points. -/
def definitions (f : Function) : List (Var × Point) :=
  f.args.map (fun d => (d.1, f.entry)) ++ f.blocks.flatMap Block.definitions

/-- **Static single assignment form**, with labels and kinds as the type checker has them.  A variable may
be used that the function does not define: a static one, or one of the main function. -/
structure Ssa (f : Function) : Prop where
  labels : (f.blocks.map Block.label).Nodup
  once : (f.definitions.map Prod.fst).Nodup
  dominates : ∀ {x pt q}, f.Uses x pt → f.Defines x q → ¬ Avoids f.Moves f.entry (f.Defines x) pt
  start : (f.block? f.start).map Block.kind = some .jump
  targets : ∀ b ∈ f.blocks, ∀ l ∈ b.kind.labels ++ b.transfer.labels, (f.block? l).isSome
  kinds : ∀ b ∈ f.blocks, b.transfer.KindsOk fun l => (f.block? l).map Block.kind

variable {f : Function} {x : Var} {pt q : Point} {l l' h : Label} {b : Block} {i j k : ℕ} {D : Point → Prop}

/-! ## Definitions -/

theorem Defines.mem (hx : f.Defines x pt) : (x, pt) ∈ f.definitions := by
  obtain hbind | ⟨hx, rfl⟩ := hx
  · refine List.mem_append_right _ ?_
    cases hbind with
    | @formal l b hb hx =>
      obtain ⟨d, hd, rfl⟩ := List.mem_map.mp hx
      obtain rfl := block?_label hb
      exact List.mem_flatMap.mpr
        ⟨b, block?_mem hb, List.mem_append_left _ (List.mem_map.mpr ⟨d, hd, rfl⟩)⟩
    | @statement l b i s hb hs hx =>
      obtain ⟨d, hd, rfl⟩ := List.mem_map.mp hx
      obtain rfl := block?_label hb
      refine List.mem_flatMap.mpr ⟨b, block?_mem hb, List.mem_append_right _ ?_⟩
      exact List.mem_flatMap.mpr
        ⟨(s, i), List.mem_zipIdx_iff_getElem?.mpr hs, List.mem_map.mpr ⟨d, hd, rfl⟩⟩
  · obtain ⟨d, hd, rfl⟩ := List.mem_map.mp hx
    exact List.mem_append_left _ (List.mem_map.mpr ⟨d, hd, rfl⟩)

/-- A variable is defined at one point. -/
theorem Ssa.unique (hf : f.Ssa) (hp : f.Defines x pt) (hq : f.Defines x q) : pt = q :=
  (Prod.mk.inj (List.inj_on_of_nodup_map hf.once hp.mem hq.mem rfl)).2

theorem Ssa.block?_of_mem (hf : f.Ssa) (hb : b ∈ f.blocks) : f.block? b.label = some b :=
  Fold.find?_key hf.labels b hb

theorem not_binds_zero : ¬ f.Binds x (l, 0) := by
  rintro ⟨⟩

/-- Formals and statements define in their own block. -/
theorem Binds.exists_eq (hx : f.Binds x pt) : ∃ l i b, pt = (l, i + 1) ∧ f.block? l = some b := by
  cases hx with
  | @formal l b hb _ => exact ⟨l, 0, b, rfl, hb⟩
  | @statement l b i _ hb _ _ => exact ⟨l, i + 1, b, rfl, hb⟩

/-! ## Paths -/

/-- Within a block there is one way back. -/
theorem Moves.eq_of_succ (hmove : f.Moves pt (l, i + 1)) : pt = (l, i) := by
  cases hmove with
  | formals => rfl
  | statement => rfl

/-- A path to a point of a block goes through the points before it. -/
theorem avoids_back : ∀ {i : ℕ}, Avoids f.Moves f.entry D (l, i) → j ≤ i → Avoids f.Moves f.entry D (l, j)
  | 0, hav, hj => by
      obtain rfl := Nat.le_zero.mp hj
      exact hav
  | i + 1, hav, hj => by
      obtain rfl | hlt := Nat.eq_or_lt_of_le hj
      · exact hav
      · refine avoids_back (i := i) ?_ (Nat.le_of_lt_succ hlt)
        generalize hq : (l, i + 1) = q at hav
        cases hav with
        | root => cases hq
        | step hu hmove =>
          subst hq
          exact hmove.eq_of_succ ▸ hu

/-- Control gets to a continuation from where it gets to the handler. -/
theorem Ssa.handler_moves (hf : f.Ssa) (hb : f.block? l = some b) (hkind : b.kind = .cont (.handle h))
    (hmove : f.Moves pt (l, 0)) : f.Moves pt (h, 0) := by
  cases hmove with
  | transfer hc hl =>
    exact .transfer hc ((hf.kinds _ (block?_mem hc)).handler_mem hl (by rw [hb, Option.map_some, hkind]))

/-- Control enters at no continuation. -/
theorem Ssa.ne_start (hf : f.Ssa) (hb : f.block? l = some b) (hkind : b.kind = .cont (.handle h)) :
    l ≠ f.start := by
  rintro rfl
  have hstart := hf.start
  rw [hb, Option.map_some, hkind] at hstart
  cases hstart

/-- What gets to a continuation and avoids some points can get to the handler. -/
theorem Ssa.avoids_handler (hf : f.Ssa) (hb : f.block? l = some b) (hkind : b.kind = .cont (.handle h))
    (hav : Avoids f.Moves f.entry D (l, 0)) (hh : ¬ D (h, 0)) : Avoids f.Moves f.entry D (h, 0) := by
  generalize hq : (l, 0) = q at hav
  cases hav with
  | root => exact absurd (Prod.mk.inj hq).1 (hf.ne_start hb hkind)
  | step hu hmove => exact hu.step (hf.handler_moves hb hkind (hq ▸ hmove)) hh

theorem Ssa.reachable_handler (hf : f.Ssa) (hb : f.block? l = some b) (hkind : b.kind = .cont (.handle h))
    (hreach : f.Reachable (l, i)) : f.Reachable (h, 0) := by
  have hav := avoids_of_not_reaches (D := fun _ => False) (fun _ h => h.elim) hreach
  exact (hf.avoids_handler hb hkind (avoids_back hav (Nat.zero_le i)) id).reaches

/-! ## Where a variable is live -/

theorem LiveAt.formals (hx : f.LiveAt x (l, 0)) : f.LiveAt x (l, 1) ∧ ¬ f.Binds x (l, 1) := by
  generalize hq : (l, 0) = q at hx
  cases hx with
  | use hu =>
    cases hu with
    | statement => cases hq
    | transfer => cases hq
  | move hmove hbind hx =>
    subst hq
    cases hmove
    exact ⟨hx, hbind⟩
  | handler => cases hq

/-- **What a function defines is live only where it has been defined**: where it is live, no path from the
start goes around its definition. -/
theorem LiveAt.not_avoids (hf : f.Ssa) (hx : f.LiveAt x pt) (hdef : f.Defines x q) :
    ¬ Avoids f.Moves f.entry (f.Defines x) pt := by
  have hentry : ∀ {p l i}, Avoids f.Moves f.entry (f.Defines x) p → ¬ f.Binds x (l, i) →
      ¬ f.Defines x (l, i) := by
    intro p l i hav hbind hd
    obtain ⟨hx, -⟩ := hd.resolve_left hbind
    have hroot : ¬ f.Defines x f.entry := by
      induction hav with
      | root h => exact h
      | step _ _ _ ih => exact ih
    exact hroot (.inr ⟨hx, rfl⟩)
  induction hx with
  | use hu => exact hf.dominates hu hdef
  | move hmove hbind _ ih => exact fun hav => ih (hav.step hmove (hentry hav hbind))
  | handler hb hkind _ ih =>
    exact fun hav => ih (hf.avoids_handler hb hkind (avoids_back hav (Nat.zero_le 1))
      (hentry hav not_binds_zero))

/-- No path gets around where the block it is in defines a variable only later. -/
theorem Ssa.avoids_before (hf : f.Ssa) (hreach : f.Reachable (l, i)) (hx : f.Binds x (l, k)) (hi : i < k) :
    Avoids f.Moves f.entry (f.Defines x) (l, i) := by
  obtain hav | ⟨w, hw, hfirst⟩ := avoids_or_exists_first (f.Defines x) hreach
  · exact hav
  · obtain rfl := hf.unique hw (.inl hx)
    obtain ⟨l', k, -, heq, -⟩ := hx.exists_eq
    obtain ⟨rfl, rfl⟩ := Prod.mk.inj heq
    obtain heq | ⟨u, hu, hmove⟩ := hfirst
    · cases heq
    · obtain rfl := hmove.eq_of_succ
      exact avoids_back hu (Nat.le_of_lt_succ hi)

/-- What is live behind the formals of a block is not defined by its statements. -/
theorem LiveAt.not_binds (hf : f.Ssa) (hreach : f.Reachable (l, 1)) (hx : f.LiveAt x (l, 1)) :
    ¬ f.Binds x (l, i + 2) :=
  fun hbind => hx.not_avoids hf (.inl hbind) (hf.avoids_before hreach hbind (by omega))

/-- What is live in a handler is not defined by the continuation. -/
theorem LiveAt.not_binds_cont (hf : f.Ssa) (hb : f.block? l = some b) (hkind : b.kind = .cont (.handle h))
    (hreach : f.Reachable (l, 0)) (hx : f.LiveAt x (h, 0)) : ¬ f.Binds x (l, k) := by
  intro hbind
  obtain ⟨l', i, -, heq, -⟩ := hbind.exists_eq
  obtain ⟨rfl, rfl⟩ := Prod.mk.inj heq
  have hav := hf.avoids_before hreach hbind (Nat.succ_pos i)
  refine hx.not_avoids hf (.inl hbind) (hf.avoids_handler hb hkind hav fun hd => ?_)
  cases hf.unique hd (.inl hbind)

end Function

end MLton.Rssa
