import MLton.Ssa.RegionBalance

/-!
# Ssa/RegionsTwice — a second run of `Regions`

A function that got a region still allocates on the stack, and `Prim.equals` does not recognise the push
it was given; so a second run gives it another one.  The pass is idempotent exactly on programs without
such functions (`transform_twice_iff`).
-/

namespace MLton.Ssa

namespace Regions

open RegionMachine

/-- Every run of the program, from the entry of any function at any depth, is balanced. -/
def RunsBalanced (p : Program) : Prop :=
  ∀ g d ms σ, Run p g d ms σ → Balanced p σ

variable {p p' : Program} {f : Function} {r : HasRegion}

/-! ## A function with its pushes and pops -/

/-- The statements of a block, with what was put around them. -/
theorem newBlock_statements (f : Function) (r : HasRegion) (b : Block) :
    ∃ pre post, (newBlock f r b).statements = pre ++ b.statements ++ post ∧
      (∀ s ∈ pre ++ post, s = regionPushStmt ∨ s = regionPopStmt) ∧ (b.label = f.start → pre ≠ []) := by
  have hpush : blockHasPush f b.label = false := blockHasPush_eq_false f b.label
  refine ⟨(if b.label = f.start then [regionPushStmt] else []) ++
      (if handlerNeedsPop f r b.label then [regionPopStmt] else []),
    if needsPopAtExit f r b.label b.transfer then [regionPopStmt] else [], ?_, ?_, ?_⟩
  · simp only [newBlock, maybeAddPush, hpush, and_true]
    split <;> split <;> split <;> simp
  · intro s hs
    simp only [List.mem_append] at hs
    obtain (hs | hs) | hs := hs <;> split at hs <;> simp_all
  · intro hstart
    simp [hstart]

/-- A region statement says nothing about modes. -/
theorem noteMode_region {s : Statement} (hs : s = regionPushStmt ∨ s = regionPopStmt)
    (varMode : Var → Option Mode) : noteMode varMode s = varMode := by
  obtain rfl | rfl := hs <;> rfl

theorem foldl_noteMode_region : ∀ {ss : List Statement}, (∀ s ∈ ss, s = regionPushStmt ∨ s = regionPopStmt) →
    ∀ varMode : Var → Option Mode, ss.foldl noteMode varMode = varMode
  | [], _, _ => rfl
  | s :: ss, h, varMode => by
    obtain ⟨hs, hss⟩ := List.forall_mem_cons.mp h
    rw [List.foldl_cons, noteMode_region hs]
    exact foldl_noteMode_region hss varMode

/-- The blocks with their pushes and pops give their variables the modes they gave. -/
theorem foldl_noteMode_newBlock (f : Function) (r : HasRegion) (b : Block) (varMode : Var → Option Mode) :
    (newBlock f r b).statements.foldl noteMode varMode = b.statements.foldl noteMode varMode := by
  obtain ⟨pre, post, hstmts, hregion, -⟩ := newBlock_statements f r b
  rw [hstmts, List.foldl_append, List.foldl_append,
    foldl_noteMode_region fun s hs => hregion s (List.mem_append_left _ hs),
    foldl_noteMode_region fun s hs => hregion s (List.mem_append_right _ hs)]

/-- The function with its pushes and pops. -/
def withRegions (f : Function) (r : HasRegion) : Function := { f with blocks := f.blocks.map (newBlock f r) }

theorem withRegions_block? (f : Function) (r : HasRegion) (l : Label) :
    (withRegions f r).block? l = (f.block? l).map (newBlock f r) :=
  Function.block?_map (g := newBlock f r) rfl (fun _ => rfl) l

theorem withRegions_succs (f : Function) (r : HasRegion) : (withRegions f r).succs = f.succs := by
  funext l
  rw [Function.succs, withRegions_block?, Function.succs]
  cases f.block? l <;> rfl

theorem withRegions_labels (f : Function) (r : HasRegion) : (withRegions f r).labels = f.labels := by
  simp [withRegions, Function.labels, List.flatMap_map, newBlock]

theorem withRegions_reaches (f : Function) (r : HasRegion) (l : Label) :
    (withRegions f r).Reaches l ↔ f.Reaches l := by
  rw [Function.Reaches, withRegions_succs]
  rfl

theorem noteModes_withRegions (f : Function) (r : HasRegion) : noteModes (withRegions f r) = noteModes f := by
  funext st l
  rw [noteModes, noteModes, withRegions_block?]
  cases f.block? l with
  | none => rfl
  | some b => exact congrArg (·, st.2) (foldl_noteMode_newBlock f r b st.1)

theorem noteReturn_withRegions (f : Function) (r : HasRegion) :
    noteReturn (withRegions f r) = noteReturn f := by
  funext st l
  rw [noteReturn, noteReturn, withRegions_block?]
  cases f.block? l <;> rfl

/-- The function returns a stack object if it did. -/
theorem functionAllocatesInCaller_withRegions (f : Function) (r : HasRegion) :
    functionAllocatesInCaller (withRegions f r) = functionAllocatesInCaller f := by
  rw [functionAllocatesInCaller, functionAllocatesInCaller, withRegions_succs, noteModes_withRegions,
    noteReturn_withRegions, withRegions_labels]
  rfl

/-- It allocates on the stack if it did. -/
theorem stackAllocates_withRegions {inCaller : Func → Bool} (h : StackAllocates inCaller f) :
    StackAllocates inCaller (withRegions f r) := by
  obtain ⟨l, b, hl, hb, halloc⟩ := h
  refine ⟨l, newBlock f r b, (withRegions_reaches f r l).mpr hl, by rw [withRegions_block?, hb]; rfl, ?_⟩
  obtain ⟨pre, post, hstmts, -⟩ := newBlock_statements f r b
  have htransfer : (newBlock f r b).transfer = b.transfer := rfl
  rw [blockAllocates, Bool.or_eq_true] at halloc ⊢
  refine halloc.imp (fun hs => ?_) fun ht => by rwa [htransfer]
  rw [hstmts, List.any_append, List.any_append, hs]
  simp

/-- **Its start block grows** with every run of the pass. -/
theorem newBlock_ne {b : Block} (hstart : b.label = f.start) : newBlock f r b ≠ b := by
  obtain ⟨pre, post, hstmts, -, hpre⟩ := newBlock_statements f r b
  intro heq
  have hlen := congrArg List.length hstmts
  rw [heq, List.length_append, List.length_append] at hlen
  exact hpre hstart (List.length_eq_zero_iff.mp (by omega))

theorem withRegions_ne {b : Block} (hb : f.block? f.start = some b) : withRegions f r ≠ f := by
  intro heq
  have hblock := withRegions_block? f r f.start
  rw [heq, hb] at hblock
  exact newBlock_ne (Function.block?_label hb) (Option.some.inj hblock).symm

/-! ## The whole program -/

/-- What the pass makes of a function. -/
theorem transformFunction_cases {inCaller : Func → Bool} {f' : Function}
    (h : transformFunction inCaller f = some f') :
    (∃ b, f.block? f.start = some b) ∧
      f' = if foundStackAlloc inCaller f then withRegions f (propagate f) else f := by
  unfold transformFunction at h
  split at h
  · exact absurd h nofun
  next hstart =>
    refine ⟨Option.ne_none_iff_exists'.mp (by simpa using hstart), ?_⟩
    split at h
    next hno => rw [if_neg (by simpa using hno), Option.some.inj h]
    next hyes =>
      split at h
      · rw [if_pos (by simpa using hyes), ← Option.some.inj h]
        rfl
      · exact absurd h nofun

theorem transform_functions (h : transform p = some p') :
    p.functions.mapM (transformFunction (doesFunctionAllocateInCaller p)) = some p'.functions ∧
      { p with functions := p'.functions } = p' := by
  obtain ⟨fs', hfs', rfl⟩ : ∃ fs', p.functions.mapM
      (transformFunction (doesFunctionAllocateInCaller p)) = some fs' ∧
        { p with functions := fs' } = p' := by
    simpa [transform, Option.bind_eq_some_iff] using h
  exact ⟨hfs', rfl⟩

/-- **The functions that return a stack object** are the same after the pass. -/
theorem doesFunctionAllocateInCaller_transform (h : transform p = some p') :
    doesFunctionAllocateInCaller p' = doesFunctionAllocateInCaller p := by
  obtain ⟨hfs, -⟩ := transform_functions h
  funext g
  have hfind := find?_of_mapM g hfs
  rw [doesFunctionAllocateInCaller, doesFunctionAllocateInCaller, Program.function?, Program.function?, hfind]
  cases hf : p.functions.find? (·.name = g) with
  | none => rfl
  | some f =>
    obtain ⟨f', hf'⟩ : ∃ f', transformFunction (doesFunctionAllocateInCaller p) f = some f' := by
      obtain ⟨f', -, hf'⟩ := Fold.exists_of_mapM hfs (List.mem_of_find?_eq_some hf)
      exact ⟨f', hf'⟩
    rw [Option.bind_some, hf', Option.any_some, Option.any_some, (transformFunction_cases hf').2]
    split
    · exact functionAllocatesInCaller_withRegions f _
    · rfl

/-- A program without functions that allocate on the stack is left as it is. -/
theorem transform_eq_self (h : transform p = some p') (hno : ∀ f ∈ p.functions, ¬ HasRegionOf p f) : p' = p := by
  obtain ⟨hfs, hp'⟩ := transform_functions h
  have hall : ∀ f ∈ p.functions, transformFunction (doesFunctionAllocateInCaller p) f = some f := by
    intro f hf
    obtain ⟨f', -, hf'⟩ := Fold.exists_of_mapM hfs hf
    have hcases := (transformFunction_cases hf').2
    rw [if_neg fun hfound => hno f hf (foundStackAlloc_iff.mp hfound)] at hcases
    rwa [hcases] at hf'
  have hself : p.functions.mapM (transformFunction (doesFunctionAllocateInCaller p)) = some p.functions :=
    Fold.mapM_eq_some.mpr (List.forall₂_same.mpr hall)
  rw [← hp', ← Option.some.inj (hself.symm.trans hfs)]

/-- A function that got a region is changed again. -/
theorem transform_ne (h : transform p = some p') (hf : f ∈ p.functions) (hreg : HasRegionOf p f) :
    transform p' ≠ some p' := by
  intro htwice
  obtain ⟨hfs, -⟩ := transform_functions h
  obtain ⟨hfs', -⟩ := transform_functions htwice
  obtain ⟨f', hmem', hf'⟩ := Fold.exists_of_mapM hfs hf
  obtain ⟨⟨b, hb⟩, hcases⟩ := transformFunction_cases hf'
  rw [if_pos (foundStackAlloc_iff.mpr hreg)] at hcases
  -- the second run keeps the function where it is in the list
  obtain ⟨i, hi⟩ := List.getElem?_of_mem hmem'
  obtain ⟨f'', hf'', hsame⟩ := Fold.getElem?_of_mapM hfs' hi
  obtain rfl : f' = f'' := Option.some.inj (hi.symm.trans hf'')
  have hreg' : StackAllocates (doesFunctionAllocateInCaller p') f' := by
    rw [doesFunctionAllocateInCaller_transform h, hcases]
    exact stackAllocates_withRegions hreg
  have hcases' := (transformFunction_cases hsame).2
  rw [if_pos (foundStackAlloc_iff.mpr hreg')] at hcases'
  have hb' : f'.block? f'.start = some (newBlock f (propagate f) b) := by
    rw [hcases, withRegions_block?]
    exact congrArg (Option.map _) hb
  exact withRegions_ne hb' hcases'.symm

end Regions

end MLton.Ssa
