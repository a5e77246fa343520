import MLton.Basic.Dominators
import MLton.Ssa.Tree

/-!
# Ssa/CommonArg — the pass that removes formals which always hold another variable

The argument flow graph has a node for the root and one for every variable.  Gotos flow their arguments
to the formals of their targets; a formal filled in another way, and a variable that is no formal, flows
from the root.  A formal whose immediate dominator is another variable is removed, and bound to that
variable at the start of its block.
-/

namespace MLton.Ssa.CommonArg

/-- An edge of the argument flow graph; `none` is the root. -/
abbrev Flow := Option Var × Option Var

/-- `labelArgs`; it raises on a label without a block. -/
def labelArgs (f : Function) (l : Label) : Option (List (Var × Ty)) := (f.block? l).map Block.args

/-- `flowVarsVarTys`; it raises where the lengths differ. -/
def flowVarsVarTys (vs : List Var) (vts : List (Var × Ty)) : Option (List Flow) :=
  if vs.length = vts.length then
    some (List.zipWith (fun v vt => (some v, some vt.1)) vs vts)
  else none

/-- `flowVarsLabelArgs`. -/
def flowVarsLabelArgs (f : Function) (vs : List Var) (l : Label) : Option (List Flow) :=
  (labelArgs f l).bind (flowVarsVarTys vs)

/-- `visitLabelArgs`. -/
def visitLabelArgs (f : Function) (l : Label) : Option (List Flow) :=
  (labelArgs f l).map fun vts => vts.map fun vt => (none, some vt.1)

/-- `visitLabelArgs` of several labels. -/
def visitLabels (f : Function) (ls : List Label) : Option (List Flow) :=
  (ls.mapM (visitLabelArgs f)).map List.flatten

/-- The edges that a transfer adds. -/
def transferFlow (f : Function) : Transfer → Option (List Flow)
  | .bug => some []
  | .call _ _ (.nonTail cont (.handle hand)) => visitLabels f [cont, hand]
  | .call _ _ (.nonTail cont _) => visitLabels f [cont]
  | .call _ _ _ => some []
  | .case _ cases default => visitLabels f (cases.labels ++ default.toList)
  | .goto dst args => flowVarsLabelArgs f args dst
  | .raise _ => some []
  | .ret _ => some []
  | .runtime _ _ ret => visitLabels f [ret]

/-- The formals of all blocks: the variables whose node is not rooted. -/
def formals (p : Program) : List Var :=
  p.functions.flatMap fun f => f.blocks.flatMap fun b => b.args.map Prod.fst

/-- The edges that the transfers add. -/
def transfersFlow (p : Program) : Option (List Flow) :=
  (p.functions.mapM fun (f : Function) =>
    (f.blocks.mapM fun b => transferFlow f b.transfer).map List.flatten).map List.flatten

/-- The argument flow graph `G`.  A variable that an edge mentions and that is no formal has a rooted
node, from its first mention on. -/
def flowGraph (p : Program) (es : List Flow) : DirectedGraph (Option Var) :=
  let mentioned := es.flatMap fun e => e.1.toList ++ e.2.toList
  let rooted : List Flow := (mentioned.filter (· ∉ formals p)).map fun v => (none, some v)
  { nodes := none :: ((formals p ++ mentioned).dedup.map some)
    successors := fun u => (((es ++ rooted).filter fun e => e.1 = u).map Prod.snd).dedup }

/-- `getVar`. -/
def getVar (idom : Option Var → DirectedGraph.IdomRes (Option Var)) (v : Var) : Var :=
  match idom (some v) with
  | .idom (some parent) => parent
  | _ => v

/-- The formals that stay: `keepVar`. -/
abbrev keepVar (get : Var → Var) (v : Var) : Prop := v = get v

/-- `keepAllMap2` with `keepVar`; it raises where the lengths differ. -/
def keepArgs (get : Var → Var) (args : List Var) (vts : List (Var × Ty)) : Option (List Var) :=
  if args.length = vts.length then
    some (((args.zip vts).filter fun avt => keepVar get avt.2.1).map Prod.fst)
  else none

/-- The rewritten transfer of a block. -/
def rewriteTransfer (f : Function) (get : Var → Var) : Transfer → Option Transfer
  | .goto dst args =>
    ((labelArgs f dst).bind (keepArgs get args)).map (.goto dst ·)
  | t => some t

/-- The statements for the formals that go. -/
def moves (get : Var → Var) (rems : List (Var × Ty)) : List Statement :=
  rems.map fun (v, ty) => { var := some v, ty := ty, exp := .var (get v) }

/-- The rewritten block. -/
def rewriteBlock (f : Function) (get : Var → Var) (b : Block) : Option Block := do
  let args := b.args.filter fun vt => keepVar get vt.1
  let rems := b.args.filter fun vt => ¬ keepVar get vt.1
  let statements := if rems.isEmpty then b.statements else moves get rems ++ b.statements
  let transfer ← rewriteTransfer f get b.transfer
  pure { args := args, label := b.label, statements := statements, transfer := transfer }

/-- The rewritten function, as it goes to `shrink`. -/
def rewrite (get : Var → Var) (f : Function) : Option Function :=
  (f.blocks.mapM (rewriteBlock f get)).map fun blocks => { f with blocks := blocks }

/-- The analysis: `getVar` for the program. -/
def analyze (p : Program) : Option (Var → Var) := do
  let es ← transfersFlow p
  let idom ← (flowGraph p es).dominators none
  pure (getVar idom)

/-- `transform`, with `shrinkFunction` for the function it is handed. -/
def transform (shrink : Function → Function) (p : Program) : Option Program := do
  let get ← analyze p
  let functions ← p.functions.mapM (rewrite get)
  pure { p with functions := (functions.map shrink).reverse }

end MLton.Ssa.CommonArg
