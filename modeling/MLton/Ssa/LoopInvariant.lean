import MLton.Ssa.HeaderSplitRuns

/-!
# Ssa/LoopInvariant — the pass that takes the invariant formals out of loops

A depth-first search compares what gotos pass with the formals of their target, where the target is still on the
stack of the search: a formal that is always passed to itself is invariant.  A second search splits the headers of
such loops.  The outer block keeps the label and takes all the formals; the inner block takes those that vary, and
the gotos that were compared go to it.
-/

namespace MLton.Ssa.LoopInvariant

/-- `labelInfo`, but for `newLabel`, which only the second search looks at. -/
structure LabelInfo where
  callsSelf : Bool
  visited : Bool
  invariant : List (Var × Bool)
deriving Repr

/-- The property of every label; one without a block has none, and the code raises there. -/
abbrev Infos := Label → LabelInfo

/-- `setLabelInfo` for all blocks. -/
def labelInfo (f : Function) : Infos := fun l =>
  { callsSelf := false
    visited := false
    invariant := ((f.block? l).map fun b => b.args.map fun vt => (vt.1, true)).getD [] }

/-! ## The first search -/

/-- What a goto to a label on the stack does to its info. -/
def compareArgs (args : List Var) (i : LabelInfo) : LabelInfo :=
  { i with
    callsSelf := true
    invariant := List.zipWith (fun x yb => (yb.1, yb.2 && decide (x = yb.1))) args i.invariant }

/-- The first `visit`. -/
def visit (f : Function) (info : Infos) (label : Label) : Infos :=
  let info := Function.update info label { info label with visited := true }
  match (f.block? label).map Block.transfer with
  | some (.goto dst args) =>
    if (info dst).visited then Function.update info dst (compareArgs args (info dst)) else info
  | _ => info

/-- What the first `visit` returns. -/
def leave (info : Infos) (label : Label) : Infos :=
  Function.update info label { info label with visited := false }

/-- The infos that the first search ends with. -/
def analyze (f : Function) : Infos :=
  (Dfs.search f.succs (visit f) leave (f.labels.length + 1) (labelInfo f) f.start).2

/-! ## The second search -/

/-- `remove`. -/
def remove {α : Type} (xs : List α) (invariant : List (Var × Bool)) : List α :=
  ((xs.zip invariant).filter fun xyb => !xyb.2.2).map Prod.fst

/-- `(outerFormals, innerFormals, innerActuals)`. -/
structure Formals where
  outerFormals : List (Var × Ty)
  innerFormals : List (Var × Ty)
  innerActuals : List Var

/-- The `foldr2` that splits the formals, from the right. -/
def splitFormals : List (Var × Ty) → List (Var × Bool) → StateM Supply Formals
  | (x, t) :: args, (_, b) :: invariant => do
    let ⟨ofs, ifs, ias⟩ ← splitFormals args invariant
    if b then pure ⟨(x, t) :: ofs, ifs, ias⟩
    else
      let x' ← Var.newNoname
      pure ⟨(x', t) :: ofs, (x, t) :: ifs, x' :: ias⟩
  | _, _ => pure ⟨[], [], []⟩

/-- The references of the second search, and the names not used yet. -/
structure Output where
  newLabel : Label → Option Label
  newBlocks : List Block
  next : Supply

/-- The inner label of a header that has an invariant formal. -/
def nameInner (i : LabelInfo) (label : Label) (out : Output) : Output :=
  if i.callsSelf && i.invariant.any Prod.snd then
    let (label', n) := Label.newNoname.run out.next
    { out with newLabel := Function.update out.newLabel label (some label'), next := n }
  else out

/-- The transfer, going to an inner block where there is one. -/
def redirect (info : Infos) (newLabel : Label → Option Label) : Transfer → Transfer
  | .goto dst args =>
    match newLabel dst with
    | none => .goto dst args
    | some dst' => .goto dst' (remove args (info dst).invariant)
  | transfer => transfer

/-- `List.push` of the block, or of its inner and its outer block. -/
def pushBlocks (i : LabelInfo) (b : Block) (transfer : Transfer) (out : Output) : Output :=
  match out.newLabel b.label with
  | none => { out with newBlocks := { b with transfer := transfer } :: out.newBlocks }
  | some label' =>
    let (s, n) := (splitFormals b.args i.invariant).run out.next
    let inner : Block :=
      { args := s.innerFormals, label := label', statements := b.statements, transfer := transfer }
    let outer : Block :=
      { args := s.outerFormals, label := b.label, statements := [], transfer := .goto label' s.innerActuals }
    { out with newBlocks := outer :: inner :: out.newBlocks, next := n }

/-- The second `visit`. -/
def rewrite (f : Function) (info : Infos) (out : Output) (label : Label) : Output :=
  match f.block? label with
  | none => out
  | some b =>
    let out := nameInner (info label) label out
    pushBlocks (info label) b (redirect info out.newLabel b.transfer) out

/-- What the second `visit` returns. -/
def forget (out : Output) (label : Label) : Output :=
  { out with newLabel := Function.update out.newLabel label none }

/-- `simplifyFunction`, up to the function that it hands to `shrink`. -/
def simplifyFunction (f : Function) : StateM Supply Function := fun n =>
  let out := (Dfs.search f.succs (rewrite f (analyze f)) forget (f.labels.length + 1)
    { newLabel := fun _ => none, newBlocks := [], next := n } f.start).2
  ({ f with blocks := out.newBlocks }, out.next)

/-- The program that the functions make before they are shrunk. -/
def simplify (p : Program) : StateM Supply Program := do
  let functions ← p.functions.mapM simplifyFunction
  pure { p with functions := functions.reverse }

/-- `transform`, with `shrinkFunction`. -/
def transform (shrink : Function → Function) (p : Program) : StateM Supply Program := do
  let p ← simplify p
  pure { p with functions := p.functions.map shrink }

end MLton.Ssa.LoopInvariant

/-!
## The two searches make a sound plan

The searches go through the same nodes, so they can be taken side by side.  While a header has an inner label it is on
the stack of both, so a goto that the second search redirects has been compared by the first one; and what has been
found to vary never comes back.
-/

namespace MLton.Ssa.LoopInvariant

open HeaderSplit

/-! ## Comparing arguments -/

/-- The arguments for the formals that still count as invariant are these formals. -/
def Same (args : List Var) (invariant : List (Var × Bool)) : Prop :=
  List.Forall₂ (fun a yb => yb.2 = true → a = yb.1) args invariant

section Compare

variable {args args' : List Var} {invariant : List (Var × Bool)} {i : LabelInfo}

theorem compareArgs_names (hlen : args.length = i.invariant.length) :
    (compareArgs args i).invariant.map Prod.fst = i.invariant.map Prod.fst := by
  rw [compareArgs]
  generalize i.invariant = invariant at hlen ⊢
  induction args generalizing invariant with
  | nil => rw [List.length_eq_zero_iff.mp hlen.symm]; rfl
  | cons a args ih =>
    cases invariant with
    | nil => cases hlen
    | cons yb invariant => simpa using ih invariant (Nat.succ.inj hlen)

/-- What has just been compared is the same. -/
theorem same_compareArgs (hlen : args.length = i.invariant.length) : Same args (compareArgs args i).invariant := by
  rw [compareArgs]
  generalize i.invariant = invariant at hlen ⊢
  induction args generalizing invariant with
  | nil => rw [List.length_eq_zero_iff.mp hlen.symm]; exact .nil
  | cons a args ih =>
    cases invariant with
    | nil => cases hlen
    | cons yb invariant => exact .cons (by simp) (ih invariant (Nat.succ.inj hlen))

/-- **What was the same stays the same**: other arguments can only rule formals out. -/
theorem Same.compareArgs (h : Same args i.invariant) (hlen : args'.length = i.invariant.length) :
    Same args (compareArgs args' i).invariant := by
  rw [LoopInvariant.compareArgs]
  generalize i.invariant = invariant at h hlen ⊢
  induction h generalizing args' with
  | nil => cases args' <;> exact .nil
  | @cons a yb args invariant hab _ ih =>
    cases args' with
    | nil => cases hlen
    | cons a' args' =>
      refine .cons (fun hflag => ?_) (ih (Nat.succ.inj hlen))
      exact hab ((Bool.and_eq_true _ _).mp hflag).1

end Compare

/-! ## The first search -/

section First

variable {f : Function} {info : Infos} {l v : Label} {b : Block}

/-- The infos of the labels list the formals of their blocks. -/
def Shaped (f : Function) (info : Infos) : Prop :=
  ∀ l b, f.block? l = some b → (info l).invariant.map Prod.fst = b.args.map Prod.fst

/-- Gotos pass as many arguments as there are formals. -/
def GotosFit (f : Function) : Prop :=
  ∀ l b dst args d, f.block? l = some b → b.transfer = .goto dst args → f.block? dst = some d →
    args.length = d.args.length

/-- Entering a node marks it, and compares at most the arguments of its goto. -/
theorem visit_spec (info : Infos) (hb : f.block? v = some b) (l : Label) :
    ((visit f info v l).visited = true ↔ l = v ∨ (info l).visited = true) ∧
      ((visit f info v l).invariant = (info l).invariant ∨
        ∃ args, b.transfer = .goto l args ∧ (visit f info v l).invariant = (compareArgs args (info l)).invariant) ∧
      ∀ args, b.transfer = .goto l args → (l = v ∨ (info l).visited = true) →
        (visit f info v l).invariant = (compareArgs args (info l)).invariant := by
  have hmark : ∀ l, (Function.update info v { info v with visited := true } l).invariant = (info l).invariant ∧
      ((Function.update info v { info v with visited := true } l).visited = true ↔ l = v ∨ (info l).visited = true) := by
    intro l
    obtain rfl | hne := eq_or_ne l v
    · simp
    · simp [hne]
  rw [visit, hb]
  generalize Function.update info v { info v with visited := true } = marked at hmark ⊢
  rw [Option.map_some]
  cases b.transfer with
  | goto dst args =>
    have hcompare : ∀ l, (compareArgs args (marked l)).invariant = (compareArgs args (info l)).invariant := fun l => by
      rw [compareArgs, (hmark l).1]
      rfl
    dsimp only
    split
    · next hvisited =>
      obtain rfl | hne := eq_or_ne l dst
      · rw [Function.update_self]
        refine ⟨(hmark l).2, .inr ⟨args, rfl, hcompare l⟩, fun args' hgoto' _ => ?_⟩
        obtain rfl := (Transfer.goto.inj hgoto').2
        exact hcompare l
      · rw [Function.update_of_ne hne]
        exact ⟨(hmark l).2, .inl (hmark l).1, fun args' hgoto' _ => absurd (Transfer.goto.inj hgoto').1.symm hne⟩
    · next hnot =>
      refine ⟨(hmark l).2, .inl (hmark l).1, fun args' hgoto' hl => ?_⟩
      obtain ⟨rfl, -⟩ := Transfer.goto.inj hgoto'
      exact absurd ((hmark dst).2.mpr hl) hnot
  | _ => exact ⟨(hmark l).2, .inl (hmark l).1, fun args' hgoto' => nomatch hgoto'⟩

theorem shaped_visit (hfit : GotosFit f) (hshaped : Shaped f info) (hb : f.block? v = some b) :
    Shaped f (visit f info v) := by
  intro l d hd
  obtain ⟨-, heq | ⟨args, hgoto, heq⟩, -⟩ := visit_spec info hb l
  · rw [heq]
    exact hshaped l d hd
  · rw [heq, compareArgs_names, hshaped l d hd]
    rw [hfit v b l args d hb hgoto hd]
    simpa using (congrArg List.length (hshaped l d hd)).symm

theorem shaped_leave (hshaped : Shaped f info) : Shaped f (leave info v) := by
  intro l b hb
  rw [← hshaped l b hb]
  obtain rfl | hne := eq_or_ne l v
  · simp [leave]
  · simp [leave, hne]

end First

/-! ## Splitting formals -/

section Formals

variable {dropped : Var → Bool} {n : ℕ}

/-- What the `foldr2` comes to: `φ` has the new names. -/
structure SplitAs (dropped : Var → Bool) (args : List (Var × Ty)) (n m : ℕ) (s : Formals) (φ : Var → Var) : Prop where
  outer : s.outerFormals = args.map fun vt => (if dropped vt.1 then vt.1 else φ vt.1, vt.2)
  inner : s.innerFormals = args.filter fun vt => !dropped vt.1
  actuals : s.innerActuals = (args.filter fun vt => !dropped vt.1).map fun vt => φ vt.1
  le : n ≤ m
  fresh : ∀ x ∈ args.map Prod.fst, dropped x = false → n ≤ (φ x).id ∧ (φ x).id < m
  inj : ∀ x ∈ args.map Prod.fst, ∀ y ∈ args.map Prod.fst, dropped x = false → dropped y = false → φ x = φ y → x = y

theorem splitFormals_cons {x y : Var} {t : Ty} {b : Bool} {args : List (Var × Ty)} {invariant : List (Var × Bool)}
    {r : Formals × Supply} (hr : (splitFormals args invariant).run n = r) :
    (splitFormals ((x, t) :: args) ((y, b) :: invariant)).run n =
      if b then (⟨(x, t) :: r.1.outerFormals, r.1.innerFormals, r.1.innerActuals⟩, r.2)
      else (⟨(⟨r.2⟩, t) :: r.1.outerFormals, (x, t) :: r.1.innerFormals, ⟨r.2⟩ :: r.1.innerActuals⟩, r.2 + 1) := by
  subst hr
  cases b <;> rfl

theorem splitFormals_spec : ∀ {args : List (Var × Ty)}, (args.map Prod.fst).Nodup →
    ∃ φ, SplitAs dropped args n ((splitFormals args (args.map fun vt => (vt.1, dropped vt.1))).run n).2
      ((splitFormals args (args.map fun vt => (vt.1, dropped vt.1))).run n).1 φ
  | [], _ => ⟨id, rfl, rfl, rfl, Nat.le_refl _, by simp, by simp⟩
  | (x, t) :: args, hnodup => by
    obtain ⟨hx, hnodup⟩ := List.nodup_cons.mp hnodup
    obtain ⟨φ, h⟩ := splitFormals_spec hnodup
    rw [List.map_cons, splitFormals_cons rfl]
    generalize (splitFormals args (args.map fun vt => (vt.1, dropped vt.1))).run n = r at h
    obtain ⟨s, m⟩ := r
    replace h : SplitAs dropped args n m s φ := h
    have hne : ∀ y ∈ args.map Prod.fst, y ≠ x := fun y hy heq => hx (heq ▸ hy)
    cases hd : dropped x with
    | true =>
      have hmem : ∀ y ∈ (x, t).1 :: args.map Prod.fst, dropped y = false → y ∈ args.map Prod.fst := fun y hy hdy =>
        (List.mem_cons.mp hy).resolve_left fun heq => by simp [heq, hd] at hdy
      exact ⟨φ, {
        outer := by simp [h.outer, hd]
        inner := by simp [h.inner, hd]
        actuals := by simp [h.actuals, hd]
        le := h.le
        fresh := fun y hy hdy => h.fresh y (hmem y hy hdy) hdy
        inj := fun y hy z hz hdy hdz => h.inj y (hmem y hy hdy) z (hmem z hz hdz) hdy hdz }⟩
    | false =>
      -- the new name is above those of the other formals
      have hold : ∀ y ∈ args.map Prod.fst, Function.update φ x ⟨m⟩ y = φ y := fun y hy =>
        Function.update_of_ne (hne y hy) _ _
      have hlt : ∀ y ∈ args.map Prod.fst, dropped y = false → φ y ≠ ⟨m⟩ := fun y hy hdy heq => by
        have := (h.fresh y hy hdy).2
        rw [heq] at this
        exact Nat.lt_irrefl _ this
      refine ⟨Function.update φ x ⟨m⟩, ?_, ?_, ?_, Nat.le_succ_of_le h.le, ?_, ?_⟩
      · simp only [h.outer, List.map_cons, hd, Function.update_self]
        refine congrArg₂ List.cons rfl (List.map_congr_left fun vt hvt => ?_)
        rw [hold _ (List.mem_map_of_mem hvt)]
      · simp [h.inner, hd]
      · simp only [h.actuals, List.filter_cons, hd, Bool.not_false, if_true, List.map_cons, Function.update_self]
        refine congrArg₂ List.cons rfl (List.map_congr_left fun vt hvt => ?_)
        rw [hold _ (List.mem_map_of_mem (List.mem_filter.mp hvt).1)]
      · intro y hy hdy
        obtain rfl | hy := List.mem_cons.mp hy
        · rw [Function.update_self]
          exact ⟨h.le, Nat.lt_succ_self m⟩
        · rw [hold y hy]
          exact ⟨(h.fresh y hy hdy).1, Nat.lt_succ_of_lt (h.fresh y hy hdy).2⟩
      · intro y hy z hz hdy hdz heq
        obtain rfl | hy' := List.mem_cons.mp hy <;> obtain rfl | hz' := List.mem_cons.mp hz
        · rfl
        · rw [Function.update_self, hold z hz'] at heq
          exact absurd heq.symm (hlt z hz' hdz)
        · rw [Function.update_self, hold y hy'] at heq
          exact absurd heq (hlt y hy' hdy)
        · rw [hold y hy', hold z hz'] at heq
          exact h.inj y hy' z hz' hdy hdz heq

end Formals

/-! ## The flags that the first search ends with -/

section Flags

variable {globals : List Var} {f : Function} {info : Infos} {l : Label} {b : Block}

/-- The formal is flagged as invariant. -/
def flagged (f : Function) (info : Infos) (x : Var) : Bool :=
  f.blocks.any fun b => (info b.label).invariant.any fun yb => yb.2 && decide (yb.1 = x)

/-- Formals are different, so a flag says all about its formal. -/
theorem flagged_eq (hf : f.Scoped globals) (hshaped : Shaped f info) (hb : f.block? l = some b) {yb : Var × Bool}
    (hyb : yb ∈ (info l).invariant) : flagged f info yb.1 = yb.2 := by
  have hbinds : ∀ {l b} {yb : Var × Bool}, f.block? l = some b → yb ∈ (info l).invariant → f.Binds yb.1 (l, 0) := by
    intro l b yb hb hyb
    refine .formal hb ?_
    rw [← hshaped l b hb]
    exact List.mem_map_of_mem hyb
  have hany : flagged f info yb.1 = true ↔ yb.2 = true := by
    simp only [flagged, List.any_eq_true, Bool.and_eq_true, decide_eq_true_eq]
    constructor
    · rintro ⟨b', hb', yb', hyb', hflag, heq⟩
      have hb' := hf.block?_of_mem hb'
      obtain ⟨hl, -⟩ := Prod.mk.inj (hf.unique (.inl (heq ▸ hbinds hb' hyb')) (.inl (hbinds hb hyb)))
      rw [hl] at hyb'
      have hnodup : ((info l).invariant.map Prod.fst).Nodup := hshaped l b hb ▸ hf.formals hb
      exact List.inj_on_of_nodup_map hnodup hyb hyb' heq.symm ▸ hflag
    · intro hflag
      exact ⟨b, Function.block?_mem hb, yb, Function.block?_label hb ▸ hyb, hflag, rfl⟩
  cases hflag : yb.2 with
  | true => exact hany.mpr hflag
  | false => exact Bool.eq_false_iff.mpr fun h => Bool.eq_false_iff.mp hflag (hany.mp h)

theorem invariant_eq (hf : f.Scoped globals) (hshaped : Shaped f info) (hb : f.block? l = some b) :
    (info l).invariant = b.args.map fun vt => (vt.1, flagged f info vt.1) := by
  have hmap : (info l).invariant = (info l).invariant.map fun yb => (yb.1, flagged f info yb.1) := by
    conv_lhs => rw [← List.map_id (info l).invariant]
    exact List.map_congr_left fun yb hyb => by rw [flagged_eq hf hshaped hb hyb]; rfl
  rw [hmap, show (fun yb : Var × Bool => (yb.1, flagged f info yb.1)) = (fun x => (x, flagged f info x)) ∘ Prod.fst from
    rfl, ← List.map_map, hshaped l b hb, List.map_map]
  rfl

end Flags

/-! ## The searches side by side -/

/-- **What the two searches have come to**, the first one at `s` and the second one at `out`: the new blocks are those
of a plan, with the names drawn so far. -/
structure Tied (f : Function) (info : Infos) (n : ℕ) (vis : List Label) (s : Infos) (out : Output) (P : Plan) :
    Prop where
  labels : P.labels = vis
  dropped : P.dropped = flagged f info
  nodup : vis.Nodup
  shaped : Shaped f s
  le : n ≤ out.next
  blocks : out.newBlocks = vis.flatMap (made P f)
  onStack : ∀ {l l'}, out.newLabel l = some l' → (s l).visited = true ∧ P.inner l = some l'
  inner : ∀ {l l'}, P.inner l = some l' → l ∈ vis ∧ n ≤ l'.id ∧ l'.id < out.next
  innerInj : ∀ {l m l'}, P.inner l = some l' → P.inner m = some l' → l = m
  formals : ∀ {l l' b}, P.inner l = some l' → f.block? l = some b → b.args ≠ []
  fresh : ∀ {l x}, P.Varies f l x → n ≤ (P.fresh x).id ∧ (P.fresh x).id < out.next
  freshInj : ∀ {l m x y}, P.Varies f l x → P.Varies f m y → P.fresh x = P.fresh y → x = y
  redirected : ∀ {l}, P.redirected l = true → l ∈ vis ∧ ∃ b dst args, f.block? l = some b ∧
    b.transfer = .goto dst args ∧ P.inner dst ≠ none ∧ Same args (s dst).invariant

/-- The plan with one more label: its inner label, the new names of its formals, and whether its goto is redirected. -/
def next (P : Plan) (v : Label) (b : Block) (i : Option Label) (φ : Var → Var) (r : Bool) : Plan where
  inner := Function.update P.inner v i
  dropped := P.dropped
  fresh x := if x ∈ b.args.map Prod.fst then φ x else P.fresh x
  redirected := Function.update P.redirected v r
  labels := v :: P.labels

section Tied

variable {globals : List Var} {f : Function} {info : Infos} {n : ℕ} {vis : List Label} {s : Infos} {out : Output}
  {P : Plan} {v l : Label} {b c : Block} {i : Option Label} {φ : Var → Var} {r : Bool} {x y : Var}

theorem next_inner : (next P v b i φ r).inner v = i := Function.update_self ..

theorem next_inner_of_ne (hne : l ≠ v) : (next P v b i φ r).inner l = P.inner l := Function.update_of_ne hne ..

theorem next_redirected : (next P v b i φ r).redirected v = r := Function.update_self ..

theorem next_redirected_of_ne (hne : l ≠ v) : (next P v b i φ r).redirected l = P.redirected l :=
  Function.update_of_ne hne ..

theorem Tied.inner_none (h : Tied f info n vis s out P) (hv : v ∉ vis) : P.inner v = none := by
  cases hinner : P.inner v with
  | none => rfl
  | some l' => exact absurd (h.inner hinner).1 hv

/-- The transfers made so far stay. -/
theorem Tied.transfer_next (h : Tied f info n vis s out P) (hv : v ∉ vis) (hc : c.label ∈ vis)
    (hblock : f.block? c.label = some c) : (next P v b i φ r).transfer f c = P.transfer f c := by
  have hne : c.label ≠ v := fun heq => hv (heq ▸ hc)
  rw [Plan.transfer, Plan.transfer, next_redirected_of_ne hne]
  cases hgoto : c.transfer with
  | goto dst args =>
    by_cases hredirected : P.redirected c.label = true
    · obtain ⟨-, c', dst', args', hc', hgoto', hinner, -⟩ := h.redirected hredirected
      obtain rfl := Option.some.inj (hblock.symm.trans hc')
      obtain ⟨rfl, rfl⟩ := Transfer.goto.inj (hgoto.symm.trans hgoto')
      have hdst : dst ≠ v := fun heq => hinner (heq ▸ h.inner_none hv)
      simp only [hredirected, if_true, Plan.redirect, next_inner_of_ne hdst]
      rfl
    · dsimp only
      rw [if_neg hredirected, if_neg hredirected]
  | _ => rfl

theorem not_formal (hf : f.Scoped globals) (hb : f.block? v = some b) (hc : f.block? l = some c) (hne : l ≠ v)
    (hx : x ∈ c.args.map Prod.fst) : x ∉ b.args.map Prod.fst := fun hx' =>
  hne (congrArg Prod.fst (hf.unique (.inl (.formal hc hx)) (.inl (.formal hb hx'))))

/-- The blocks made so far stay. -/
theorem Tied.made_next (h : Tied f info n vis s out P) (hf : f.Scoped globals) (hv : v ∉ vis)
    (hb : f.block? v = some b) (hl : l ∈ vis) : made (next P v b i φ r) f l = made P f l := by
  rw [made, made]
  cases hc : f.block? l with
  | none => rfl
  | some c =>
    obtain rfl := Function.block?_label hc
    have hne : c.label ≠ v := fun heq => hv (heq ▸ hl)
    have htr : (next P v b i φ r).transfer f c = P.transfer f c := h.transfer_next hv hl hc
    have hfresh : ∀ vt ∈ c.args, (next P v b i φ r).fresh vt.1 = P.fresh vt.1 := fun vt hvt =>
      if_neg (not_formal hf hb hc hne (List.mem_map_of_mem hvt))
    simp only [Option.toList_some, List.flatMap_singleton, Plan.blocks, next_inner_of_ne hne]
    cases P.inner c.label with
    | none => simp only [Plan.whole, htr]
    | some l' =>
      have houter : (next P v b i φ r).outerBlock c l' = P.outerBlock c l' := by
        have hargs : c.args.map (fun vt => ((next P v b i φ r).outer vt.1, vt.2)) =
            c.args.map fun vt => (P.outer vt.1, vt.2) :=
          List.map_congr_left fun vt hvt => by rw [Plan.outer, Plan.outer, hfresh vt hvt]; rfl
        have hkept : ((next P v b i φ r).kept c.args).map (fun vt => (next P v b i φ r).fresh vt.1) =
            (P.kept c.args).map fun vt => P.fresh vt.1 :=
          List.map_congr_left fun vt hvt => hfresh vt (List.mem_filter.mp hvt).1
        rw [Plan.outerBlock, Plan.outerBlock, hargs, hkept]
      have hinnerBlock : (next P v b i φ r).innerBlock f c l' = P.innerBlock f c l' := by
        rw [Plan.innerBlock, Plan.innerBlock, htr]
        rfl
      simp only [houter, hinnerBlock]

/-- The arguments of a goto are as many as the formals that its target lists. -/
theorem length_invariant (hfit : GotosFit f) (hf : f.Scoped globals) (hshaped : Shaped f s) (hb : f.block? v = some b)
    {dst : Label} {args : List Var} (hgoto : b.transfer = .goto dst args) :
    args.length = (s dst).invariant.length := by
  obtain ⟨d, hd⟩ := hf.targets hb dst (by rw [hgoto]; exact List.mem_singleton_self dst)
  rw [hfit v b dst args d hb hgoto hd]
  simpa using (congrArg List.length (hshaped dst d hd)).symm

/-- What has been compared so far is still the same when one more label has been entered. -/
theorem Same.visit (hfit : GotosFit f) (hf : f.Scoped globals) (hshaped : Shaped f s) (hb : f.block? v = some b)
    {args : List Var} (h : Same args (s l).invariant) : Same args (visit f s v l).invariant := by
  obtain ⟨-, heq | ⟨args', hgoto, heq⟩, -⟩ := visit_spec s hb l
  · rwa [heq]
  · rw [heq]
    exact h.compareArgs (length_invariant hfit hf hshaped hb hgoto)

/-- A formal that varies is one of the label entered, or of one entered before. -/
theorem varies_next (hf : f.Scoped globals) (hb : f.block? v = some b) (hx : (next P v b i φ r).Varies f l x) :
    (l = v ∧ i ≠ none ∧ x ∈ b.args.map Prod.fst ∧ P.dropped x = false ∧ (next P v b i φ r).fresh x = φ x) ∨
      (P.Varies f l x ∧ (next P v b i φ r).fresh x = P.fresh x) := by
  obtain ⟨l', c, hinner, hc, hx⟩ := hx
  obtain ⟨hmem, hdrop⟩ := mem_kept.mp hx
  obtain rfl | hne := eq_or_ne l v
  · obtain rfl := Option.some.inj (hb.symm.trans hc)
    have hi : i = some l' := by rwa [next_inner] at hinner
    exact .inl ⟨rfl, by simp [hi], hmem, hdrop, if_pos hmem⟩
  · have hinner : P.inner l = some l' := by rwa [next_inner_of_ne hne] at hinner
    exact .inr ⟨⟨l', c, hinner, hc, mem_kept.mpr ⟨hmem, hdrop⟩⟩, if_neg (not_formal hf hb hc hne hmem)⟩

/-- **One more label**, with names that are new. -/
theorem Tied.extend (h : Tied f info n vis s out P) (hf : f.Scoped globals) (hfit : GotosFit f) (hv : v ∉ vis)
    (hb : f.block? v = some b) {newLabel : Label → Option Label} {m : ℕ} (hself : newLabel v = i)
    (hother : ∀ l, l ≠ v → newLabel l = out.newLabel l) (hm : out.next ≤ m)
    (hi : ∀ v', i = some v' → out.next ≤ v'.id ∧ v'.id < m ∧ b.args ≠ [])
    (hφ : i ≠ none → ∀ x ∈ b.args.map Prod.fst, P.dropped x = false → out.next ≤ (φ x).id ∧ (φ x).id < m)
    (hinj : i ≠ none → ∀ x ∈ b.args.map Prod.fst, ∀ y ∈ b.args.map Prod.fst, P.dropped x = false →
      P.dropped y = false → φ x = φ y → x = y)
    (hr : r = true → ∃ dst args, b.transfer = .goto dst args ∧ newLabel dst ≠ none) :
    Tied f info n (v :: vis) (visit f s v)
      { newLabel := newLabel, newBlocks := made (next P v b i φ r) f v ++ out.newBlocks, next := m }
      (next P v b i φ r) := by
  have hinner : ∀ {l l'}, (next P v b i φ r).inner l = some l' → (l = v ∧ i = some l') ∨ (l ≠ v ∧ P.inner l = some l') := by
    intro l l' hl
    obtain rfl | hne := eq_or_ne l v
    · exact .inl ⟨rfl, by rwa [next_inner] at hl⟩
    · exact .inr ⟨hne, by rwa [next_inner_of_ne hne] at hl⟩
  refine ⟨congrArg _ h.labels, h.dropped, List.nodup_cons.mpr ⟨hv, h.nodup⟩, shaped_visit hfit h.shaped hb,
    h.le.trans hm, ?_, ?_, ?_, ?_, ?_, ?_, ?_, ?_⟩
  · rw [List.flatMap_cons, h.blocks]
    exact congrArg _ (List.flatMap_congr fun l hl => (h.made_next hf hv hb hl).symm)
  · intro l l' hl
    obtain rfl | hne := eq_or_ne l v
    · refine ⟨(visit_spec s hb l).1.mpr (.inl rfl), ?_⟩
      rw [next_inner, ← hself]
      exact hl
    · obtain ⟨hvisited, hl⟩ := h.onStack ((hother l hne).symm.trans hl)
      refine ⟨(visit_spec s hb l).1.mpr (.inr hvisited), ?_⟩
      rwa [next_inner_of_ne hne]
  · intro l l' hl
    obtain ⟨rfl, hi'⟩ | ⟨-, hold⟩ := hinner hl
    · exact ⟨List.mem_cons_self .., h.le.trans (hi l' hi').1, (hi l' hi').2.1⟩
    · obtain ⟨hmem, hfrom, hto⟩ := h.inner hold
      exact ⟨List.mem_cons_of_mem _ hmem, hfrom, hto.trans_le hm⟩
  · intro l k l' hl hk
    obtain ⟨hlv, hi'⟩ | ⟨-, hold⟩ := hinner hl <;> obtain ⟨hkv, hi''⟩ | ⟨-, hold'⟩ := hinner hk
    · exact hlv.trans hkv.symm
    · exact absurd (h.inner hold').2.2 (Nat.not_lt.mpr (hi l' hi').1)
    · exact absurd (h.inner hold).2.2 (Nat.not_lt.mpr (hi l' hi'').1)
    · exact h.innerInj hold hold'
  · intro l l' c hl hc
    obtain ⟨rfl, hi'⟩ | ⟨-, hold⟩ := hinner hl
    · obtain rfl := Option.some.inj (hb.symm.trans hc)
      exact (hi l' hi').2.2
    · exact h.formals hold hc
  · intro l x hx
    obtain ⟨-, hi, hmem, hdrop, heq⟩ | ⟨hx, heq⟩ := varies_next hf hb hx
    · rw [heq]
      exact ⟨h.le.trans (hφ hi x hmem hdrop).1, (hφ hi x hmem hdrop).2⟩
    · rw [heq]
      exact ⟨(h.fresh hx).1, (h.fresh hx).2.trans_le hm⟩
  · intro l k x y hx hy heq
    obtain ⟨-, hi, hmem, hdrop, hx⟩ | ⟨hxv, hx⟩ := varies_next hf hb hx <;>
      obtain ⟨-, hi', hmem', hdrop', hy⟩ | ⟨hyv, hy⟩ := varies_next hf hb hy <;> rw [hx, hy] at heq
    · exact hinj hi x hmem y hmem' hdrop hdrop' heq
    · exact absurd (heq ▸ (h.fresh hyv).2) (Nat.not_lt.mpr (hφ hi x hmem hdrop).1)
    · exact absurd (heq ▸ (h.fresh hxv).2) (Nat.not_lt.mpr (hφ hi' y hmem' hdrop').1)
    · exact h.freshInj hxv hyv heq
  · intro l hl
    obtain rfl | hne := eq_or_ne l v
    · have hl : r = true := by rwa [next_redirected] at hl
      obtain ⟨dst, args, hgoto, hdst⟩ := hr hl
      have hlen := length_invariant hfit hf h.shaped hb hgoto
      -- the target is on the stack, so the goto has just been compared
      obtain ⟨hvisited, hne⟩ : (dst = l ∨ (s dst).visited = true) ∧ (next P l b i φ r).inner dst ≠ none := by
        obtain rfl | hne := eq_or_ne dst l
        · exact ⟨.inl rfl, by rwa [next_inner, ← hself]⟩
        · obtain ⟨l', hl'⟩ := Option.ne_none_iff_exists'.mp hdst
          obtain ⟨hvisited, hinner⟩ := h.onStack ((hother dst hne).symm.trans hl')
          exact ⟨.inr hvisited, by simp [next_inner_of_ne hne, hinner]⟩
      refine ⟨List.mem_cons_self .., b, dst, args, hb, hgoto, hne, ?_⟩
      rw [(visit_spec s hb dst).2.2 args hgoto hvisited]
      exact same_compareArgs hlen
    · have hl : P.redirected l = true := by rwa [next_redirected_of_ne hne] at hl
      obtain ⟨hmem, c, dst, args, hc, hgoto, hdst, hsame⟩ := h.redirected hl
      refine ⟨List.mem_cons_of_mem _ hmem, c, dst, args, hc, hgoto, ?_, hsame.visit hfit hf h.shaped hb⟩
      have hne : dst ≠ v := by
        rintro rfl
        exact hdst (h.inner_none hv)
      rwa [next_inner_of_ne hne]

/-- Leaving a label. -/
theorem Tied.leave (h : Tied f info n vis s out P) : Tied f info n vis (leave s v) (forget out v) P := by
  have hinvariant : ∀ l, (LoopInvariant.leave s v l).invariant = (s l).invariant := fun l => by
    obtain rfl | hne := eq_or_ne l v
    · simp [LoopInvariant.leave]
    · simp [LoopInvariant.leave, hne]
  refine { h with shaped := shaped_leave h.shaped, onStack := fun {l l'} hl => ?_, redirected := fun {l} hl => ?_ }
  · obtain rfl | hne := eq_or_ne l v
    · simp [forget] at hl
    · rw [LoopInvariant.leave, Function.update_of_ne hne]
      exact h.onStack (by simpa [forget, hne] using hl)
  · obtain ⟨hmem, b, dst, args, hb, hgoto, hdst, hsame⟩ := h.redirected hl
    exact ⟨hmem, b, dst, args, hb, hgoto, hdst, by rwa [hinvariant]⟩

/-- The second search redirects the transfer. -/
def redirects (newLabel : Label → Option Label) : Transfer → Bool
  | .goto dst _ => (newLabel dst).isSome
  | _ => false

theorem remove_eq {args : List Var} {vts : List (Var × Ty)} :
    remove args (vts.map fun vt => (vt.1, P.dropped vt.1)) = P.passed args vts := by
  rw [remove, Plan.passed, List.zip_map_right, List.filter_map, List.map_map]
  rfl

/-- What the second search makes of a transfer is what the plan does. -/
theorem redirect_eq (hf : f.Scoped globals) (hinfo : Shaped f info) (hb : f.block? v = some b)
    {newLabel : Label → Option Label} (hdropped : P.dropped = flagged f info)
    (hinner : ∀ l l', newLabel l = some l' → P.inner l = some l')
    (hr : P.redirected v = redirects newLabel b.transfer) :
    redirect info newLabel b.transfer = P.transfer f b := by
  obtain rfl := Function.block?_label hb
  rw [Plan.transfer]
  cases hgoto : b.transfer with
  | goto dst args =>
    rw [hgoto, redirects] at hr
    dsimp only [redirect]
    cases hdst : newLabel dst with
    | none => simp [hr, hdst]
    | some dst' =>
      obtain ⟨d, hd⟩ := hf.targets hb dst (by rw [hgoto]; exact List.mem_singleton_self dst)
      rw [invariant_eq hf hinfo hd, ← hdropped, remove_eq]
      simp [hr, hdst, Plan.redirect, hinner dst dst' hdst, hd]
  | _ => rfl

theorem exists_of_redirects {newLabel : Label → Option Label} {tr : Transfer} (h : redirects newLabel tr = true) :
    ∃ dst args, tr = .goto dst args ∧ newLabel dst ≠ none := by
  cases tr with
  | goto dst args => exact ⟨dst, args, rfl, Option.isSome_iff_ne_none.mp h⟩
  | _ => cases h

theorem made_next_none (hb : f.block? v = some b) :
    made (next P v b none φ r) f v = [(next P v b none φ r).whole f b] := by
  simp [made, hb, Plan.blocks, Function.block?_label hb, next_inner]

theorem made_next_some {v' : Label} (hb : f.block? v = some b) : made (next P v b (some v') φ r) f v =
    [(next P v b (some v') φ r).outerBlock b v', (next P v b (some v') φ r).innerBlock f b v'] := by
  simp [made, hb, Plan.blocks, Function.block?_label hb, next_inner]

/-- A label that is not split. -/
theorem Tied.enter_whole (h : Tied f info n vis s out P) (hf : f.Scoped globals) (hfit : GotosFit f)
    (hinfo : Shaped f info) (hv : v ∉ vis) (hb : f.block? v = some b) (hnone : out.newLabel v = none) :
    ∃ P', Tied f info n (v :: vis) (visit f s v)
      (pushBlocks (info v) b (redirect info out.newLabel b.transfer) out) P' := by
  have htied := h.extend (i := none) (φ := id) (r := redirects out.newLabel b.transfer) hf hfit hv hb hnone
    (fun _ _ => rfl) (Nat.le_refl _) (by simp) (by simp) (by simp) exists_of_redirects
  have hinner : ∀ l l', out.newLabel l = some l' →
      (next P v b none id (redirects out.newLabel b.transfer)).inner l = some l' := by
    intro l l' hl
    rw [next_inner_of_ne fun heq => by simp [heq, hnone] at hl]
    exact (h.onStack hl).2
  have htr := redirect_eq (P := next P v b none id (redirects out.newLabel b.transfer)) hf hinfo hb h.dropped hinner
    next_redirected
  rw [made_next_none hb] at htied
  obtain rfl := Function.block?_label hb
  refine ⟨next P b.label b none id (redirects out.newLabel b.transfer), ?_⟩
  rw [pushBlocks, hnone, htr]
  exact htied

/-- A label that is split. -/
theorem Tied.enter_split (h : Tied f info n vis s out P) (hf : f.Scoped globals) (hfit : GotosFit f)
    (hinfo : Shaped f info) (hv : v ∉ vis) (hb : f.block? v = some b) (hany : (info v).invariant.any Prod.snd = true) :
    ∃ P', Tied f info n (v :: vis) (visit f s v)
      (pushBlocks (info v) b (redirect info (Function.update out.newLabel v (some ⟨out.next⟩)) b.transfer)
        { out with newLabel := Function.update out.newLabel v (some ⟨out.next⟩), next := out.next + 1 }) P' := by
  obtain ⟨φ, hs⟩ := @splitFormals_spec (flagged f info) (out.next + 1) b.args (hf.formals hb)
  rw [← invariant_eq hf hinfo hb] at hs
  generalize hr : (splitFormals b.args (info v).invariant).run (out.next + 1) = res at hs
  obtain ⟨fs, m⟩ := res
  replace hs : SplitAs (flagged f info) b.args (out.next + 1) m fs φ := hs
  have hargs : b.args ≠ [] := by
    intro hnil
    rw [invariant_eq hf hinfo hb, hnil] at hany
    cases hany
  generalize hnew : Function.update out.newLabel v (some (⟨out.next⟩ : Label)) = newLabel
  have hself : newLabel v = some ⟨out.next⟩ := hnew ▸ Function.update_self ..
  have hother : ∀ l, l ≠ v → newLabel l = out.newLabel l := fun l hne => hnew ▸ Function.update_of_ne hne ..
  have htied := h.extend (φ := φ) (r := redirects newLabel b.transfer) hf hfit hv hb hself hother
    ((Nat.le_succ _).trans hs.le)
    (fun v' hv' => by
      obtain rfl := Option.some.inj hv'
      exact ⟨Nat.le_refl _, hs.le, hargs⟩)
    (fun _ x hx hd => ⟨(Nat.le_succ _).trans (hs.fresh x hx (h.dropped ▸ hd)).1, (hs.fresh x hx (h.dropped ▸ hd)).2⟩)
    (fun _ x hx y hy hdx hdy => hs.inj x hx y hy (h.dropped ▸ hdx) (h.dropped ▸ hdy)) exists_of_redirects
  have hinner : ∀ l l', newLabel l = some l' →
      (next P v b (some ⟨out.next⟩) φ (redirects newLabel b.transfer)).inner l = some l' := by
    intro l l' hl
    obtain rfl | hne := eq_or_ne l v
    · rw [next_inner, ← hself, hl]
    · rw [next_inner_of_ne hne]
      exact (h.onStack ((hother l hne).symm.trans hl)).2
  have htr := redirect_eq (P := next P v b (some ⟨out.next⟩) φ (redirects newLabel b.transfer)) hf hinfo hb h.dropped
    hinner next_redirected
  generalize hP : next P v b (some ⟨out.next⟩) φ (redirects newLabel b.transfer) = P' at htied htr
  have hfresh : ∀ vt ∈ b.args, P'.fresh vt.1 = φ vt.1 := fun vt hvt => by
    rw [← hP]
    exact if_pos (List.mem_map_of_mem hvt)
  have hdropped : P'.dropped = flagged f info := by
    rw [← hP]
    exact h.dropped
  have houter : P'.outerBlock b ⟨out.next⟩ = ⟨fs.outerFormals, v, [], .goto ⟨out.next⟩ fs.innerActuals⟩ := by
    rw [Plan.outerBlock, Function.block?_label hb, hs.outer, hs.actuals]
    congr 1
    · refine List.map_congr_left fun vt hvt => ?_
      rw [Plan.outer, hdropped, hfresh vt hvt]
    · rw [Plan.kept, hdropped]
      exact congrArg _ (List.map_congr_left fun vt hvt => hfresh vt (List.mem_filter.mp hvt).1)
  have hinnerBlock : P'.innerBlock f b ⟨out.next⟩ =
      ⟨fs.innerFormals, ⟨out.next⟩, b.statements, redirect info newLabel b.transfer⟩ := by
    rw [Plan.innerBlock, Plan.kept, hdropped, hs.inner, htr]
  refine ⟨P', ?_⟩
  rw [pushBlocks, Function.block?_label hb]
  dsimp only
  rw [hself]
  dsimp only
  rw [hr]
  rw [← hP, made_next_some hb, hP, houter, hinnerBlock] at htied
  exact htied

/-- **Entering a label.** -/
theorem Tied.enter (h : Tied f info n vis s out P) (hf : f.Scoped globals) (hfit : GotosFit f) (hinfo : Shaped f info)
    (hv : v ∉ vis) (hb : f.block? v = some b) :
    ∃ P', Tied f info n (v :: vis) (visit f s v) (rewrite f info out v) P' := by
  have hnone : out.newLabel v = none := by
    cases hnew : out.newLabel v with
    | none => rfl
    | some l' => exact absurd (h.inner (h.onStack hnew).2).1 hv
  rw [rewrite, hb]
  dsimp only [nameInner]
  by_cases hsplit : ((info v).callsSelf && (info v).invariant.any Prod.snd) = true
  · rw [if_pos hsplit]
    exact h.enter_split hf hfit hinfo hv hb ((Bool.and_eq_true _ _).mp hsplit).2
  · rw [if_neg hsplit]
    exact h.enter_whole hf hfit hinfo hv hb hnone

/-! ## The function that is made -/

/-- What the search enters has a block. -/
theorem exists_enterable (hf : f.Scoped globals) (hv : Dfs.Enterable f.succs f.start vis v) :
    ∃ b, f.block? v = some b := by
  obtain ⟨-, rfl | ⟨u, -, huv⟩⟩ := hv
  · exact hf.start.imp fun _ h => h.1
  · cases hb : f.block? u with
    | none => simp [Function.succs, hb] at huv
    | some b => exact hf.targets hb v (Function.succs_of_block? hb ▸ huv)

theorem shaped_labelInfo : Shaped f (labelInfo f) := fun l b hb => by simp [labelInfo, hb]

theorem shaped_analyze (hf : f.Scoped globals) (hfit : GotosFit f) : Shaped f (analyze f) :=
  Dfs.search_inv (I := fun _ s => Shaped f s) shaped_labelInfo
    (fun _ _ _ hs hv => (exists_enterable hf hv).elim fun _ hb => shaped_visit hfit hs hb)
    fun _ _ _ hs _ => shaped_leave hs

/-- The plan before the searches. -/
def noPlan (f : Function) (info : Infos) : Plan where
  inner _ := none
  dropped := flagged f info
  fresh := id
  redirected _ := false
  labels := []

theorem tied_noPlan : Tied f info n [] (labelInfo f) { newLabel := fun _ => none, newBlocks := [], next := n }
    (noPlan f info) where
  labels := rfl
  dropped := rfl
  nodup := .nil
  shaped := shaped_labelInfo
  le := Nat.le_refl n
  blocks := rfl
  onStack h := nomatch h
  inner h := nomatch h
  innerInj h := nomatch h
  formals h := nomatch h
  fresh h := h.elim fun _ ⟨_, h, _⟩ => nomatch h
  freshInj h := h.elim fun _ ⟨_, h, _⟩ => nomatch h
  redirected h := nomatch h

/-- **`simplifyFunction` carries out a sound plan**, with names that it draws. -/
theorem simplifyFunction_spec (hf : f.Scoped globals) (hfit : GotosFit f) (n : ℕ) :
    n ≤ ((simplifyFunction f).run n).2 ∧ ∃ P : Plan, P.Sound n ((simplifyFunction f).run n).2 f ∧
      Makes P f ((simplifyFunction f).run n).1 := by
  have hinfo := shaped_analyze hf hfit
  -- both searches at once
  let start : Output := { newLabel := fun _ => none, newBlocks := [], next := n }
  let both := Dfs.search f.succs (fun (st : Infos × Output) v => (visit f st.1 v, rewrite f (analyze f) st.2 v))
    (fun st v => (leave st.1 v, forget st.2 v)) (f.labels.length + 1) (labelInfo f, start) f.start
  have hfirst : Dfs.search f.succs (visit f) leave (f.labels.length + 1) (labelInfo f) f.start =
      (both.1, both.2.1) := Dfs.search_map (φ := Prod.fst) (fun _ _ => rfl) (fun _ _ => rfl) _ (labelInfo f, start) _
  have hsecond : Dfs.search f.succs (rewrite f (analyze f)) forget (f.labels.length + 1) start f.start =
      (both.1, both.2.2) := Dfs.search_map (φ := Prod.snd) (fun _ _ => rfl) (fun _ _ => rfl) _ (labelInfo f, start) _
  obtain ⟨P, h⟩ : ∃ P, Tied f (analyze f) n both.1 both.2.1 both.2.2 P :=
    Dfs.search_inv (I := fun vis (st : Infos × Output) => ∃ P, Tied f (analyze f) n vis st.1 st.2 P) ⟨_, tied_noPlan⟩
      (fun vis st v ⟨P, h⟩ hv => (exists_enterable hf hv).elim fun b hb => h.enter hf hfit hinfo hv.1 hb)
      fun vis st v ⟨P, h⟩ _ => ⟨P, h.leave⟩
  have hinvariant : both.2.1 = analyze f := (congrArg Prod.snd hfirst).symm
  have hout : (simplifyFunction f).run n = ({ f with blocks := both.2.2.newBlocks }, both.2.2.next) := by
    rw [← show (Dfs.search f.succs (rewrite f (analyze f)) forget (f.labels.length + 1) start f.start).2 = both.2.2 from
      congrArg Prod.snd hsecond]
    rfl
  have hreach : ∀ l, l ∈ both.1 ↔ Relation.ReflTransGen (Dfs.Edge f.succs) f.start l := fun l =>
    Dfs.mem_search_iff (fun u _ => f.succs_subset_labels u) (Nat.lt_succ_self _) f.start_mem_labels
  rw [hout]
  refine ⟨h.le, P, {
    start := h.labels ▸ (hreach f.start).mpr .refl
    closed := fun l hl l' hl' => by
      rw [h.labels] at hl ⊢
      exact (hreach l').mpr (((hreach l).mp hl).tail hl')
    nodup := h.labels ▸ h.nodup
    inner := fun hl => (h.inner hl).2
    innerInj := h.innerInj
    formals := h.formals
    fresh := h.fresh
    freshInj := h.freshInj
    redirected := fun {l b dst args dst' d} hred hb hgoto hdst hd => ?_ }, ⟨rfl, rfl, rfl, rfl, rfl, ?_⟩⟩
  · obtain ⟨-, b', dst', args', hb', hgoto', -, hsame⟩ := h.redirected hred
    obtain rfl := Option.some.inj (hb.symm.trans hb')
    obtain ⟨rfl, rfl⟩ := Transfer.goto.inj (hgoto.symm.trans hgoto')
    rw [hinvariant, Same, invariant_eq hf hinfo hd, ← h.dropped, List.forall₂_map_right_iff] at hsame
    exact hsame
  · rw [h.labels]
    exact h.blocks

end Tied

end MLton.Ssa.LoopInvariant
