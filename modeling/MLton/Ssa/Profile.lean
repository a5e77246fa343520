import MLton.Machinery.EntryState
import MLton.Ssa.DirectExp
import MLton.Ssa.OpenRegions

/-!
# Ssa/Profile — profiling marks, and what checks them

`Function.profile` enters a source at the start of a function and leaves it wherever control leaves the
function; `checkProf` walks over a function with the stack of sources that are open.  The marks are balanced
if what each path has opened is what it can close (`ProfBalanced`), and that is what `checkProf` accepts
(`checkProf_iff`).
-/

namespace MLton.Ssa

/-! ## Marking a function -/

namespace Profile

open DirectExp (Gen State newVar newName push errorBug)

section

variable (f : Function) (sourceInfo : ℕ)

/-- `make`, of a mark. -/
def make (e : ProfileExp) : Statement where
  var := none
  ty := .unit
  exp := .profile e

/-- `leave`. -/
def leave : Statement := make (.leave sourceInfo)

/-- Fresh variables of these types. -/
def newVars : List Ty → Gen (List (Var × Ty))
  | [] => pure []
  | t :: ts => do
    let x ← newVar
    let xs ← newVars ts
    pure ((x, t) :: xs)

/-- `prefix`: a block with the statements that goes to the label. -/
def prefixBlock (l : Label) (statements : List Statement) : Gen Label := do
  match f.block? l with
  | none => errorBug
  | some b =>
    let c ← newName
    let xs ← newVars (b.args.map Prod.snd)
    push { args := xs, label := c, statements, transfer := .goto l (xs.map Prod.fst) }
    pure c

/-- `genHandler`. -/
def genHandler (cont : Label) : Gen (Label × Handler) :=
  match f.raises with
  | none => pure (cont, .caller)
  | some ts => do
    let xs ← newVars ts
    let l ← newName
    push { args := xs, label := l, statements := [leave sourceInfo], transfer := .raise (xs.map Prod.fst) }
    let c ← prefixBlock f cont []
    pure (c, .handle l)

/-- The transfer of a block, behind its statements. -/
def profileTransfer (statements : List Statement) (transfer : Transfer) : Gen (List Statement × Transfer) :=
  let addLeave := (statements ++ [leave sourceInfo], transfer)
  match transfer with
  | .call args func (.nonTail cont .caller) => do
    let (cont, handler) ← genHandler f sourceInfo cont
    pure (statements, .call args func (.nonTail cont handler))
  | .call _ _ .tail => pure addLeave
  | .raise _ => pure addLeave
  | .ret _ => pure addLeave
  | _ => pure (statements, transfer)

/-- A block with its marks. -/
def profileBlock (b : Block) : Gen Block := do
  let statements := if b.label = f.start then make (.enter sourceInfo) :: b.statements else b.statements
  let (statements, transfer) ← profileTransfer f sourceInfo statements b.transfer
  pure { b with statements, transfer }

end

end Profile

open Profile in
/-- `Function.profile`, by what the controls say of profiling: whether it is off, and whether it is at the source
level. -/
def Function.profile (profileNone profileSource : Bool) (f : Function) (sourceInfo : ℕ) (supply : Supply) :
    Option (Function × Supply) :=
  if profileNone || !profileSource then some (f, supply)
  else do
    let (blocks, s) ← f.blocks.mapM (profileBlock f sourceInfo) { supply, blocks := [] }
    pure ({ f with blocks := s.blocks ++ blocks }, s.supply)

/-! ## Checking the marks -/

/-- Control leaves the function. -/
def Transfer.leaves : Transfer → Bool
  | call _ _ .tail => true
  | raise _ => true
  | ret _ => true
  | _ => false

/-- What a mark does to the open sources. -/
def ProfileExp.run (sources : List ℕ) : ProfileExp → Option (List ℕ)
  | enter si => some (si :: sources)
  | leave si =>
    match sources with
    | [] => none
    | si' :: sources => if si = si' then some sources else none

/-- What a statement does to the open sources. -/
def Statement.sources (sources : List ℕ) (s : Statement) : Option (List ℕ) :=
  match s.exp with
  | .profile e => e.run sources
  | _ => some sources

/-- What a block does to the open sources. -/
def Block.sources (b : Block) (sources : List ℕ) : Option (List ℕ) := do
  let sources ← b.statements.foldlM Statement.sources sources
  if b.transfer.leaves && !sources.isEmpty then none else some sources

namespace Function

/-- What the block of a label does to the open sources. -/
def sources (f : Function) (l : Label) (sources : List ℕ) : Option (List ℕ) :=
  (f.block? l).bind (·.sources sources)

/-- `checkProf`. -/
def checkProf (f : Function) : Bool :=
  (EntryState.visit f.succs f.sources (f.labels.length + 1) (fun _ => none) f.start []).isSome

end Function

/-! ## Balanced marks -/

/-- **What a sequence of marks has open**, latest first; each mark that leaves leaves what was entered last. -/
inductive Opens : List ProfileExp → List ℕ → Prop
  | nil : Opens [] []
  | enter {es : List ProfileExp} {stk : List ℕ} {si : ℕ} : Opens es stk → Opens (es ++ [.enter si]) (si :: stk)
  | leave {es : List ProfileExp} {stk : List ℕ} {si : ℕ} : Opens es (si :: stk) → Opens (es ++ [.leave si]) stk

/-- The mark that a statement is. -/
def Statement.mark? (s : Statement) : Option ProfileExp :=
  match s.exp with
  | .profile e => some e
  | _ => none

namespace Opens

variable {es : List ProfileExp} {stk stk' : List ℕ}

theorem iff_foldlM : Opens es stk ↔ es.foldlM ProfileExp.run [] = some stk := by
  constructor
  · intro h
    induction h with
    | nil => rfl
    | enter _ ih => rw [List.foldlM_append, ih]; rfl
    | @leave es stk si _ ih =>
      rw [List.foldlM_append, ih]
      simp [ProfileExp.run]
  · induction es using List.reverseRecOn generalizing stk with
    | nil =>
      intro h
      obtain rfl := Option.some.inj h
      exact .nil
    | append_singleton es e ih =>
      intro h
      rw [List.foldlM_append] at h
      obtain ⟨stk', hes, he⟩ := Option.bind_eq_some_iff.mp h
      obtain ⟨stk'', he, h⟩ := Option.bind_eq_some_iff.mp he
      obtain rfl := Option.some.inj h
      match e, stk', he with
      | .enter si, stk', he =>
        obtain rfl := Option.some.inj he
        exact .enter (ih hes)
      | .leave si, si' :: stk', he =>
        obtain ⟨rfl, rfl⟩ : si = si' ∧ stk' = stk'' := by simpa [ProfileExp.run] using he
        exact .leave (ih hes)

/-- What marks have open is determined. -/
theorem unique (h : Opens es stk) (h' : Opens es stk') : stk = stk' :=
  Option.some.inj ((iff_foldlM.mp h).symm.trans (iff_foldlM.mp h'))

end Opens

theorem foldlM_sources : ∀ {ss : List Statement} {stk : List ℕ},
    ss.foldlM Statement.sources stk = (ss.filterMap Statement.mark?).foldlM ProfileExp.run stk
  | [], _ => rfl
  | s :: ss, stk => by
      rw [List.foldlM_cons, List.filterMap_cons, Statement.sources, Statement.mark?]
      split
      · next e _ =>
        rw [List.foldlM_cons]
        exact congrArg (Option.bind _) (funext fun _ => foldlM_sources)
      · exact foldlM_sources

theorem Block.sources_eq_some {b : Block} {stk stk' : List ℕ} : b.sources stk = some stk' ↔
    b.statements.foldlM Statement.sources stk = some stk' ∧ (b.transfer.leaves = true → stk' = []) := by
  rw [Block.sources, Option.bind_eq_bind, Option.bind_eq_some_iff]
  constructor
  · rintro ⟨stk'', hstmts, h⟩
    obtain ⟨hno, h⟩ := Option.ite_none_left_eq_some.mp h
    obtain rfl := Option.some.inj h
    refine ⟨hstmts, fun hleaves => ?_⟩
    simpa [hleaves] using hno
  · rintro ⟨hstmts, hleaves⟩
    refine ⟨stk', hstmts, if_neg ?_⟩
    simpa using hleaves

namespace Function

/-- The marks of the block of a label. -/
def marks (f : Function) (l : Label) : List ProfileExp :=
  ((f.block? l).map fun b => b.statements.filterMap Statement.mark?).getD []

/-- **The marks are balanced**: on every path they match and nothing is open where control leaves, and each
block has one stack at its entry. -/
structure ProfBalanced (f : Function) : Prop where
  matched : ∀ {p l b}, Path f.succs f.start p l → f.block? l = some b →
    ∃ stk, Opens ((p ++ [l]).flatMap f.marks) stk ∧ (b.transfer.leaves = true → stk = [])
  single : ∀ {p p' l stk stk'}, Path f.succs f.start p l → Path f.succs f.start p' l →
    Opens (p.flatMap f.marks) stk → Opens (p'.flatMap f.marks) stk' → stk = stk'

/-- Every label has a block. -/
def Closed (f : Function) : Prop := ∀ l ∈ f.labels, ∃ b, f.block? l = some b

variable {f : Function} {l : Label} {b : Block} {es : List ProfileExp} {p : List Label} {stk stk' : List ℕ}

/-- The marks of a path, block by block. -/
theorem opens_snoc : Opens ((p ++ [l]).flatMap f.marks) stk' ↔
    ∃ stk, Opens (p.flatMap f.marks) stk ∧ (f.marks l).foldlM ProfileExp.run stk = some stk' := by
  rw [List.flatMap_append, List.flatMap_singleton, Opens.iff_foldlM, List.foldlM_append]
  simp only [Opens.iff_foldlM]
  exact Option.bind_eq_some_iff

theorem sources_eq_some (hb : f.block? l = some b) : f.sources l stk = some stk' ↔
    (f.marks l).foldlM ProfileExp.run stk = some stk' ∧ (b.transfer.leaves = true → stk' = []) := by
  rw [sources, hb, Option.bind_some, Block.sources_eq_some, marks, hb, foldlM_sources]
  rfl

theorem labels_of_leaves {t : Transfer} (ht : t.leaves = true) : t.labels = [] := by
  unfold Transfer.leaves at ht
  split at ht
  · rfl
  · rfl
  · rfl
  · cases ht

/-- **A path brings what it has opened**. -/
theorem arrives_iff : EntryState.Arrives f.succs f.sources f.start [] l stk ↔
    ∃ p, Path f.succs f.start p l ∧ Opens (p.flatMap f.marks) stk := by
  constructor
  · intro h
    induction h with
    | root => exact ⟨[], .nil, .nil⟩
    | @step u v stk stk' _ hout hv ih =>
      obtain ⟨p, hp, hopens⟩ := ih
      obtain ⟨b, hb, -⟩ := Option.bind_eq_some_iff.mp hout
      exact ⟨p ++ [u], hp.snoc hv, opens_snoc.mpr ⟨stk, hopens, ((sources_eq_some hb).mp hout).1⟩⟩
  · rintro ⟨p, hp, hopens⟩
    induction hp generalizing stk with
    | nil =>
      obtain rfl := Option.some.inj (Opens.iff_foldlM.mp hopens)
      exact .root
    | @snoc p u v _ hv ih =>
      obtain ⟨stk₀, hopens, hmarks⟩ := opens_snoc.mp hopens
      unfold succs at hv
      split at hv
      · next b hb =>
        refine (ih hopens).step ((sources_eq_some hb).mpr ⟨hmarks, fun hleaves => ?_⟩) ?_
        · rw [labels_of_leaves hleaves] at hv
          cases hv
        · rwa [succs_of_block? hb]
      · cases hv

/-- **What is balanced**, one block at a time. -/
theorem consistent_iff (hf : f.Closed) :
    EntryState.Consistent f.succs f.sources f.start [] ↔ f.ProfBalanced := by
  constructor
  · intro h
    refine ⟨fun {p l b} hp hb => ?_, fun hp hp' hopens hopens' =>
      h.single (arrives_iff.mpr ⟨_, hp, hopens⟩) (arrives_iff.mpr ⟨_, hp', hopens'⟩)⟩
    have hopens : ∃ stk, Opens (p.flatMap f.marks) stk := by
      clear hb
      induction hp with
      | nil => exact ⟨[], .nil⟩
      | @snoc p u v hp _ ih =>
        obtain ⟨stk, hopens⟩ := ih
        obtain ⟨stk', hout⟩ := h.runs (arrives_iff.mpr ⟨p, hp, hopens⟩)
        obtain ⟨b, hb, -⟩ := Option.bind_eq_some_iff.mp hout
        exact ⟨stk', opens_snoc.mpr ⟨stk, hopens, ((sources_eq_some hb).mp hout).1⟩⟩
    obtain ⟨stk, hopens⟩ := hopens
    obtain ⟨stk', hout⟩ := h.runs (arrives_iff.mpr ⟨p, hp, hopens⟩)
    obtain ⟨hmarks, hleaves⟩ := (sources_eq_some hb).mp hout
    exact ⟨stk', opens_snoc.mpr ⟨stk, hopens, hmarks⟩, hleaves⟩
  · intro h
    refine ⟨fun {l stk} harr => ?_, fun harr harr' => ?_⟩
    · obtain ⟨p, hp, hopens⟩ := arrives_iff.mp harr
      have hl : l ∈ f.labels := by
        cases hp with
        | nil => exact f.start_mem_labels
        | snoc _ hv => exact f.succs_subset_labels _ hv
      obtain ⟨b, hb⟩ := hf l hl
      obtain ⟨stk', hopens', hleaves⟩ := h.matched hp hb
      obtain ⟨stk₀, hopens₀, hmarks⟩ := opens_snoc.mp hopens'
      obtain rfl := hopens.unique hopens₀
      exact ⟨stk', (sources_eq_some hb).mpr ⟨hmarks, hleaves⟩⟩
    · obtain ⟨p, hp, hopens⟩ := arrives_iff.mp harr
      obtain ⟨p', hp', hopens'⟩ := arrives_iff.mp harr'
      exact h.single hp hp' hopens hopens'

/-- **What `checkProf` accepts**: the functions whose marks are balanced. -/
theorem checkProf_eq_true (hf : f.Closed) : f.checkProf = true ↔ f.ProfBalanced := by
  rw [checkProf, Option.isSome_iff_exists, ← consistent_iff hf]
  exact EntryState.exists_visit_iff (fun l _ => f.succs_subset_labels l) f.start_mem_labels (Nat.lt_succ_self _)

end Function

end MLton.Ssa
