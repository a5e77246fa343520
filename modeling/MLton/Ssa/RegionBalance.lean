import MLton.Ssa.RegionMachine
import MLton.Ssa.Regions

/-!
# Ssa/RegionBalance — where `Regions` keeps the region depth balanced

Region statements of the program's own are not recognised, so `propagate` finds exactly the reachable
blocks (`exit_propagate_iff`): once entered, a function has its region open until it is left.  `newBlock`
then closes the region once on each way out, with two gaps.  A block that some call names as its
handler closes the region on entry, and again on the way out; and an exception that passes through a
call leaves the region open.  `transform_balanced` is the balance of every run that keeps clear of
them.
-/

namespace MLton.Ssa

/-- No block has a region statement. -/
def Function.RegionFree (f : Function) : Prop :=
  ∀ b ∈ f.blocks, ∀ s ∈ b.statements, s.isPush = false ∧ s.isPop = false

/-- No function has a region statement. -/
def Program.RegionFree (p : Program) : Prop := ∀ f ∈ p.functions, f.RegionFree

/-- Control can get to the label from the start. -/
def Function.Reaches (f : Function) (l : Label) : Prop :=
  Relation.ReflTransGen (Dfs.Edge f.succs) f.start l

namespace Regions

open RegionMachine

variable {f : Function} {l : Label}

/-! ## Which functions get a region -/

/-- Some reachable block allocates on the stack, or calls a function that returns a stack object. -/
def StackAllocates (inCaller : Func → Bool) (f : Function) : Prop :=
  ∃ l b, f.Reaches l ∧ f.block? l = some b ∧ blockAllocates inCaller b = true

theorem mem_search_reaches {σ : Type*} {pre post : σ → Label → σ} {s : σ} :
    l ∈ (Dfs.search f.succs pre post (f.labels.length + 1) s f.start).1 ↔ f.Reaches l :=
  Dfs.mem_search_iff (fun u _ => f.succs_subset_labels u) (Nat.lt_succ_self _) f.start_mem_labels

theorem foundStackAlloc_iff {inCaller : Func → Bool} :
    foundStackAlloc inCaller f = true ↔ StackAllocates inCaller f := by
  have hinv : foundStackAlloc inCaller f = true ↔
      ∃ l ∈ (Dfs.search f.succs (fun found l => found || (f.block? l).any (blockAllocates inCaller))
        (fun found _ => found) (f.labels.length + 1) false f.start).1,
          (f.block? l).any (blockAllocates inCaller) = true :=
    Dfs.search_inv (I := fun vis found => found = true ↔
        ∃ l ∈ vis, (f.block? l).any (blockAllocates inCaller) = true) (by simp)
      (fun vis s v h _ => by simp [h, or_comm]) (fun _ _ _ h _ => h)
  rw [hinv]
  simp only [mem_search_reaches, Option.any_eq_true, StackAllocates]
  exact ⟨fun ⟨l, hl, b, hb, ha⟩ => ⟨l, b, hl, hb, ha⟩, fun ⟨l, b, hl, hb, ha⟩ => ⟨l, hl, b, hb, ha⟩⟩

/-! ## Which blocks run with the region open -/

theorem newEntry_mono {exit exit' : Label → Bool} (h : ∀ l, exit l = true → exit' l = true)
    (hl : newEntry f exit l = true) : newEntry f exit' l = true := by
  simp only [newEntry, Bool.or_eq_true, List.any_eq_true] at hl ⊢
  exact hl.imp id fun ⟨i, hi, hexit⟩ => ⟨i, hi, h i hexit⟩

theorem newExit_mono {exit exit' : Label → Bool} (h : ∀ l, exit l = true → exit' l = true)
    (hl : newExit f exit l = true) : newExit f exit' l = true := by
  simp only [newExit, Bool.and_eq_true] at hl ⊢
  exact ⟨newEntry_mono h hl.1, hl.2⟩

/-- The arrays claim no more than their equations give, and only of reachable blocks. -/
structure Below (f : Function) (r : HasRegion) : Prop where
  entry : ∀ l, r.entry l = true → newEntry f r.exit l = true
  exit : ∀ l, r.exit l = true → newExit f r.exit l = true
  reaches : ∀ l, r.exit l = true → f.Reaches l

/-- The blocks still off, in both arrays. -/
def offs (f : Function) (r : HasRegion) : ℕ :=
  (f.blocks.map Block.label).countP (fun l => !r.entry l) +
    (f.blocks.map Block.label).countP fun l => !r.exit l

theorem countP_update_le (φ : Label → Bool) (i : Label) (ls : List Label) :
    ls.countP (fun l => !Function.update φ i true l) ≤ ls.countP fun l => !φ l :=
  List.countP_mono_left fun l _ h => by
    by_cases hl : l = i
    · simp [hl] at h
    · simpa [Function.update_of_ne hl] using h

theorem countP_update_lt {φ : Label → Bool} {i : Label} {ls : List Label} (hi : i ∈ ls)
    (hφ : φ i = false) :
    ls.countP (fun l => !Function.update φ i true l) < ls.countP fun l => !φ l := by
  obtain ⟨s, t, rfl⟩ := List.append_of_mem hi
  have hs := countP_update_le φ i s
  have ht := countP_update_le φ i t
  simp only [List.countP_append, List.countP_cons, Function.update_self, hφ, Bool.not_true,
    Bool.not_false, if_true, Bool.false_eq_true, if_false] at *
  omega

theorem reaches_of_newEntry {r : HasRegion} (h : Below f r) (hl : newEntry f r.exit l = true) :
    f.Reaches l := by
  simp only [newEntry, Bool.or_eq_true, decide_eq_true_eq, List.any_eq_true] at hl
  obtain rfl | ⟨i, hi, hexit⟩ := hl
  · exact .refl
  · exact (h.reaches i hexit).tail (by simpa [preds, Dfs.Edge] using (List.mem_filter.mp hi).2)

theorem setEntry_lowers {b : Block} (hb : b ∈ f.blocks) :
    Sweep.Lowers (setEntry f) (Below f) (offs f) b := by
  intro r c hr
  unfold setEntry
  by_cases hne : r.entry b.label = newEntry f r.exit b.label
  · simpa [hne] using hr
  · have hold : r.entry b.label = false := by
      by_contra hon
      have hon := Bool.eq_true_of_not_eq_false hon
      exact hne (hon.trans (hr.entry _ hon).symm)
    have hnew : newEntry f r.exit b.label = true := by simpa [hold] using hne
    simp only [hold, hnew]
    refine ⟨⟨fun l hl => ?_, hr.exit, hr.reaches⟩, Or.inr ⟨rfl, ?_⟩⟩
    · by_cases hlb : l = b.label
      · exact hlb ▸ hnew
      · exact hr.entry l (by simpa [Function.update_of_ne hlb] using hl)
    · exact Nat.add_lt_add_right (countP_update_lt (List.mem_map_of_mem hb) hold) _

theorem setExit_lowers {b : Block} (hb : b ∈ f.blocks) :
    Sweep.Lowers (setExit f) (Below f) (offs f) b := by
  intro r c hr
  unfold setExit
  by_cases hne : r.exit b.label = newExit f r.exit b.label
  · simpa [← hne] using hr
  · have hold : r.exit b.label = false := by
      by_contra hon
      have hon := Bool.eq_true_of_not_eq_false hon
      exact hne (hon.trans (hr.exit _ hon).symm)
    have hnew : newExit f r.exit b.label = true := by simpa [hold] using hne
    have hmono : ∀ l, r.exit l = true → Function.update r.exit b.label true l = true := by
      intro l hl
      by_cases hlb : l = b.label
      · rw [hlb, Function.update_self]
      · rwa [Function.update_of_ne hlb]
    simp only [hold, hnew]
    refine ⟨⟨fun l hl => newEntry_mono hmono (hr.entry l hl), fun l hl => ?_, fun l hl => ?_⟩,
      Or.inr ⟨rfl, ?_⟩⟩
    · by_cases hlb : l = b.label
      · exact newExit_mono hmono (hlb ▸ hnew)
      · exact newExit_mono hmono (hr.exit l (by simpa [Function.update_of_ne hlb] using hl))
    · by_cases hlb : l = b.label
      · exact hlb ▸ reaches_of_newEntry hr (Bool.and_eq_true_iff.mp hnew).1
      · exact hr.reaches l (by simpa [Function.update_of_ne hlb] using hl)
    · exact Nat.add_lt_add_left (countP_update_lt (List.mem_map_of_mem hb) hold) _

theorem below_init (f : Function) :
    Below f { entry := Function.update (fun _ => false) f.start true, exit := fun _ => false } where
  entry l hl := by
    by_cases hlf : l = f.start
    · simp [newEntry, hlf]
    · simp [Function.update_of_ne hlf] at hl
  exit := by simp
  reaches := by simp

theorem offs_le (f : Function) (r : HasRegion) : offs f r ≤ 2 * f.blocks.length := by
  have h1 := List.countP_le_length (l := f.blocks.map Block.label) (p := fun l => !r.entry l)
  have h2 := List.countP_le_length (l := f.blocks.map Block.label) (p := fun l => !r.exit l)
  simp only [List.length_map] at h1 h2
  unfold offs
  omega

theorem setEntry_exit (f : Function) (acc : HasRegion × Bool) (b : Block) :
    (setEntry f acc b).1.exit = acc.1.exit := by
  simp only [setEntry]
  split <;> rfl

/-- **`propagate` ends in a solution of its equations**, and claims no unreachable block. -/
theorem propagate_spec (f : Function) : Below f (propagate f) ∧ ∀ b ∈ f.blocks,
    (propagate f).exit b.label = newExit f (propagate f).exit b.label := by
  obtain ⟨hbelow, hfix⟩ := Sweep.sweeps_settled (g := propagateBlock f) (I := Below f)
    (μ := offs f) (l := f.blocks) (fun b hb => (setEntry_lowers hb).comp (setExit_lowers hb))
    (2 * f.blocks.length + 1) _ (Nat.lt_succ_of_le (offs_le f _)) (below_init f)
  refine ⟨hbelow, fun b hb => ?_⟩
  by_contra hne
  have hstep : propagateBlock f (propagate f, false) b = (propagate f, false) := hfix b hb
  have hexit := setEntry_exit f (propagate f, false) b
  rw [propagateBlock, setExit, if_pos (by rwa [hexit])] at hstep
  simp at hstep

/-- Region statements are not recognised. -/
theorem equals_regionPop (prim : Prim) : prim.equals .regionPop = false := by
  cases prim <;> rfl

theorem equals_regionPush (prim : Prim) : prim.equals .regionPush = false := by
  cases prim <;> rfl

theorem statementIsPrim_eq_false {prim : Prim} (h : ∀ prim' : Prim, prim'.equals prim = false) (s : Statement) :
    statementIsPrim prim s = false := by
  unfold statementIsPrim
  cases s.exp with
  | primApp prim' targs mode args => exact h prim'
  | _ => rfl

theorem blockHasPop_eq_false (f : Function) (l : Label) : blockHasPop f l = false := by
  simp [blockHasPop, blockHasPrim, Option.any_eq_false, statementIsPrim_eq_false equals_regionPop]

theorem blockHasPush_eq_false (f : Function) (l : Label) : blockHasPush f l = false := by
  simp [blockHasPush, blockHasPrim, Option.any_eq_false, statementIsPrim_eq_false equals_regionPush]

/-- **The region is open exactly at the blocks control can get to.** -/
theorem exit_propagate_iff {b : Block} (hb : f.block? l = some b) :
    (propagate f).exit l = true ↔ f.Reaches l := by
  obtain ⟨hbelow, hfix⟩ := propagate_spec f
  have hfix' : ∀ l b, f.block? l = some b →
      (propagate f).exit l = newEntry f (propagate f).exit l := by
    intro l b hb
    have := hfix b (Function.block?_mem hb)
    rwa [Function.block?_label hb, newExit, blockHasPop_eq_false, Bool.not_false, Bool.and_true] at this
  refine ⟨hbelow.reaches l, fun h => ?_⟩
  induction h generalizing b with
  | refl => simp [hfix' _ b hb, newEntry]
  | tail hu huv ih =>
    rename_i u v
    have hmem : v ∈ f.succs u := huv
    cases hbu : f.block? u with
    | none => simp [Function.succs, hbu] at hmem
    | some bu =>
      have hpreds : u ∈ preds f v := by
        refine List.mem_filter.mpr ⟨?_, by simpa using hmem⟩
        exact Function.block?_label hbu ▸ List.mem_map_of_mem (Function.block?_mem hbu)
      rw [hfix' v b hb, newEntry]
      simp only [Bool.or_eq_true, List.any_eq_true]
      exact Or.inr ⟨u, hpreds, ih hbu⟩

/-! ## What a transformed block does to the depth -/

/-- Some call control can get to names the label as its handler. -/
def HandlerBlock (f : Function) (l : Label) : Prop :=
  ∃ b ∈ f.blocks, f.Reaches b.label ∧
    ∃ args g cont, b.transfer = .call args g (.nonTail cont (.handle l))

/-- The depth at the entry of a block, over the depth at the entry of the function; the flag says
whether the function has a region. -/
def inDepth (reg : Bool) (f : Function) (l : Label) : ℤ := if reg ∧ l ≠ f.start then 1 else 0

/-- The depth where a block passes control on. -/
def outDepth (reg : Bool) (f : Function) (l : Label) : ℤ :=
  if reg ∧ f.start ∉ f.succs l then 1 else 0

theorem inDepth_nonneg (reg : Bool) (f : Function) (l : Label) : 0 ≤ inDepth reg f l := by
  unfold inDepth
  split <;> decide

theorem outDepth_nonneg (reg : Bool) (f : Function) (l : Label) : 0 ≤ outDepth reg f l := by
  unfold outDepth
  split <;> decide

/-- The next block starts at the depth this one ends at, if control goes to the start whenever it
could. -/
theorem inDepth_eq_outDepth {reg : Bool} {l' : Label} (hl' : l' ∈ f.succs l)
    (h : reg = true → f.start ∈ f.succs l → l' = f.start) :
    inDepth reg f l' = outDepth reg f l := by
  cases reg with
  | false => simp [inDepth, outDepth]
  | true =>
    by_cases hs : f.start ∈ f.succs l
    · simp [inDepth, outDepth, hs, h rfl hs]
    · have hne : l' ≠ f.start := fun heq => hs (heq ▸ hl')
      simp [inDepth, outDepth, hs, hne]

@[simp] theorem regionDelta_push : regionPushStmt.regionDelta = 1 := rfl

@[simp] theorem regionDelta_pop : regionPopStmt.regionDelta = -1 := rfl

theorem regionDelta_eq_zero : ∀ {ss : List Statement},
    (∀ s ∈ ss, s.isPush = false ∧ s.isPop = false) → regionDelta ss = 0
  | [], _ => rfl
  | s :: ss, h => by
    obtain ⟨hpush, hpop⟩ := h s (by simp)
    rw [regionDelta_cons, regionDelta_eq_zero fun t ht => h t (List.mem_cons_of_mem _ ht)]
    simp [Statement.regionDelta, hpush, hpop]

/-- Within a block of plain statements with a pop at its end the depth falls by one at most. -/
theorem neg_one_le_regionDelta {ss pre : List Statement}
    (h : ∀ s ∈ ss, s.isPush = false ∧ s.isPop = false) (hpre : pre <+: ss ++ [regionPopStmt]) :
    -1 ≤ regionDelta pre := by
  obtain rfl | hpre := List.prefix_concat_iff.mp hpre
  · simp [regionDelta_eq_zero h]
  · rw [regionDelta_eq_zero fun s hs => h s (hpre.subset hs)]
    decide

/-- **A transformed block**: the depth does not fall below that of the function's entry, and at the
end of the block it is again that depth if control leaves the function. -/
structure BlockSpec (reg : Bool) (f : Function) (b b' : Block) : Prop where
  label : b'.label = b.label
  transfer : b'.transfer = b.transfer
  above : ∀ pre, pre <+: b'.statements → 0 ≤ inDepth reg f b.label + regionDelta pre
  exit : inDepth reg f b.label + regionDelta b'.statements =
    if leaves b.transfer then 0 else outDepth reg f b.label

theorem blockSpec_refl (hfree : f.RegionFree) {b : Block} (hb : b ∈ f.blocks) :
    BlockSpec false f b b where
  label := rfl
  transfer := rfl
  above pre hpre := by
    rw [regionDelta_eq_zero fun s hs => hfree b hb s (hpre.subset hs)]
    simpa using inDepth_nonneg false f b.label
  exit := by simp [inDepth, outDepth, regionDelta_eq_zero (hfree b hb)]

theorem handlerBlock_of_handlerNeedsPop (h : handlerNeedsPop f (propagate f) l = true) :
    HandlerBlock f l := by
  obtain ⟨b, hb, hcall⟩ := List.any_eq_true.mp h
  split at hcall
  · rename_i args g cont handlerLabel ht
    simp only [Bool.and_eq_true, decide_eq_true_eq] at hcall
    obtain ⟨⟨rfl, hexit⟩, -⟩ := hcall
    exact ⟨b, hb, (propagate_spec f).1.reaches _ hexit, args, g, cont, ht⟩
  · simp at hcall

/-- Every block of a function with a region meets its specification, handler blocks apart. -/
theorem blockSpec_newBlock (hfree : f.RegionFree) {b : Block} (hb : f.block? l = some b)
    (hl : f.Reaches l) (hh : ¬ HandlerBlock f l) :
    BlockSpec true f b (newBlock f (propagate f) b) := by
  have hlabel := Function.block?_label hb
  have hplain := hfree b (Function.block?_mem hb)
  have hexit : (propagate f).exit b.label = true := (exit_propagate_iff (hlabel ▸ hb)).mpr
    (hlabel ▸ hl)
  have hneed : handlerNeedsPop f (propagate f) b.label = false := by
    by_contra hneed
    exact hh (hlabel ▸ handlerBlock_of_handlerNeedsPop (Bool.eq_true_of_not_eq_false hneed))
  have hpopAt : needsPopAtExit f (propagate f) b.label b.transfer =
      (leaves b.transfer || decide (f.start ∈ f.succs b.label)) := by
    rw [Function.succs_of_block? (hlabel ▸ hb)]
    simp [needsPopAtExit, hexit, blockHasPop_eq_false, transferCanEnterStart]
  -- the statements: the push at the start block, the old ones, the pop
  obtain ⟨push, pop, hstmts, hpush, hpop⟩ : ∃ push pop,
      (newBlock f (propagate f) b).statements = push ++ (b.statements ++ pop) ∧
      (push = if b.label = f.start then [regionPushStmt] else []) ∧
      (pop = if leaves b.transfer || decide (f.start ∈ f.succs b.label) then [regionPopStmt]
        else []) := by
    refine ⟨_, _, ?_, rfl, rfl⟩
    simp only [newBlock, hneed, hpopAt, maybeAddPush, blockHasPush_eq_false, and_true,
      Bool.false_eq_true, if_false]
    split <;> split <;> simp
  have hpre : ∀ pre, pre <+: b.statements ++ pop → -1 ≤ regionDelta pre := by
    intro pre hpre
    refine neg_one_le_regionDelta hplain (hpre.trans ?_)
    rw [hpop]
    split <;> simp
  refine ⟨rfl, rfl, fun pre h => ?_, ?_⟩
  · rw [hstmts, hpush] at h
    by_cases hs : b.label = f.start
    · rw [if_pos hs] at h
      simp only [inDepth, hs, ne_eq, not_true_eq_false, and_false, if_false, zero_add]
      cases pre with
      | nil => simp
      | cons s pre =>
        obtain ⟨rfl, htail⟩ := List.cons_prefix_cons.mp h
        have := hpre pre htail
        simp only [regionDelta_cons, regionDelta_push]
        omega
    · rw [if_neg hs, List.nil_append] at h
      have := hpre pre h
      simp only [inDepth, hs, ne_eq, not_false_eq_true, and_true, if_true]
      omega
  · rw [hstmts, hpush, hpop]
    simp only [regionDelta_append, regionDelta_eq_zero hplain, inDepth, outDepth]
    have hout : regionDelta (if leaves b.transfer || decide (f.start ∈ f.succs b.label) then
        [regionPopStmt] else []) =
          (if leaves b.transfer then 0 else if f.start ∉ f.succs b.label then 1 else 0) - 1 := by
      by_cases hleaves : leaves b.transfer = true <;>
        by_cases hin : f.start ∈ f.succs b.label <;> simp [hleaves, hin]
    rw [hout]
    by_cases hs : b.label = f.start
    · simp only [hs, ne_eq, not_true_eq_false, and_false, if_false, if_true, regionDelta_cons,
        regionDelta_push, regionDelta_nil, true_and]
      omega
    · simp only [hs, ne_eq, not_false_eq_true, and_true, if_true, if_false, regionDelta_nil, true_and]
      omega

/-! ## The whole program -/

theorem find?_of_mapM {inCaller : Func → Bool} (g : Func) {fs fs' : List Function}
    (h : fs.mapM (transformFunction inCaller) = some fs') :
    fs'.find? (·.name = g) = (fs.find? (·.name = g)).bind (transformFunction inCaller) := by
  refine Fold.find?_mapM (fun f f' hf => ?_) h
  have hname : f'.name = f.name := by
    unfold transformFunction at hf
    grind
  simp [hname]

/-- The function stack-allocates, and so gets a region. -/
abbrev HasRegionOf (p : Program) (f : Function) : Prop :=
  StackAllocates (doesFunctionAllocateInCaller p) f

/-- The same, as the pass finds it out. -/
abbrev reg (p : Program) (f : Function) : Bool := foundStackAlloc (doesFunctionAllocateInCaller p) f

variable {p p' : Program}

/-- What the pass makes of the blocks of a function. -/
theorem transform_function (h : transform p = some p') {g : Func} {f' : Function}
    (hf' : p'.function? g = some f') : ∃ f, p.function? g = some f ∧ f'.start = f.start ∧
      ∀ l, f'.block? l = (f.block? l).map fun b =>
        if reg p f then newBlock f (propagate f) b else b := by
  obtain ⟨fs', hfs', rfl⟩ : ∃ fs', p.functions.mapM
      (transformFunction (doesFunctionAllocateInCaller p)) = some fs' ∧
        { p with functions := fs' } = p' := by
    simpa [transform, Option.bind_eq_some_iff] using h
  have hfind := find?_of_mapM g hfs'
  rw [Program.function?] at hf'
  rw [hf', eq_comm, Option.bind_eq_some_iff] at hfind
  obtain ⟨f, hf, htrans⟩ := hfind
  refine ⟨f, hf, ?_⟩
  by_cases hreg : reg p f = true
  · obtain rfl : { f with blocks := f.blocks.map (newBlock f (propagate f)) } = f' := by
      unfold transformFunction at htrans
      grind
    refine ⟨rfl, fun l => ?_⟩
    simp only [hreg, if_true]
    exact Function.block?_map (g := newBlock f (propagate f)) rfl (fun _ => rfl) l
  · obtain rfl : f = f' := by
      unfold transformFunction at htrans
      grind
    exact ⟨rfl, fun l => by simp [hreg]⟩

/-- **The condition on a move**, in terms of the program as it was.  In a function with a region,
control enters no handler block; it goes to the start of the function if it could; and no exception
reaches a call that would pass it on, unless that call could also return to the start. -/
def Meets (p : Program) : Move → Prop
  | .enter g => ∀ f, p.function? g = some f → HasRegionOf p f → ¬ HandlerBlock f f.start
  | .edge g l l' => ∀ f, p.function? g = some f → HasRegionOf p f →
      ¬ HandlerBlock f l' ∧ (f.start ∈ f.succs l → l' = f.start)
  | .raise (some (g, l)) => ∀ f b, p.function? g = some f → HasRegionOf p f →
      f.block? l = some b → (∃ args g' cont, b.transfer = .call args g' (.nonTail cont .caller)) →
      f.start ∈ f.succs l
  | _ => True

/-- An activation is where the condition lets it be. -/
structure At (p : Program) (fr : Frame) (f : Function) : Prop where
  func : p.function? fr.func = some f
  reaches : f.Reaches fr.label
  handler : reg p f = true → ¬ HandlerBlock f fr.label

/-- The activations below the top, each at the depth its call was made at. -/
inductive Waits (p : Program) : ℤ → List Frame → Prop where
  | nil {d : ℤ} : Waits p d []
  | cons {d : ℤ} {fr : Frame} {frs : List Frame} {f : Function} : At p fr f →
      d = fr.entry + outDepth (reg p f) f fr.label → Waits p fr.entry frs → Waits p d (fr :: frs)

/-- **The invariant.** -/
inductive Inv (p p' : Program) : State → Prop where
  | run {d : ℤ} {fr : Frame} {frs : List Frame} {f : Function} {b' : Block}
      {pre rest : List Statement} : At p fr f → p'.block? fr.func fr.label = some b' →
      b'.statements = pre ++ rest → d = fr.entry + (inDepth (reg p f) f fr.label + regionDelta pre) →
      Waits p fr.entry frs → Inv p p' ⟨d, fr :: frs, .run rest⟩
  | raised {d : ℤ} {frs : List Frame} : Waits p d frs → Meets p (.raise (site frs)) →
      Inv p p' ⟨d, frs, .raised⟩
  | done {d : ℤ} : Inv p p' ⟨d, [], .run []⟩

theorem HasRegionOf.of_reg {f : Function} (h : reg p f = true) : HasRegionOf p f :=
  foundStackAlloc_iff.mp h

theorem Waits.entry_le {d : ℤ} {frs : List Frame} (h : Waits p d frs) :
    ∀ fr ∈ frs, fr.entry ≤ d := by
  induction h with
  | nil => simp
  | cons _ hd _ ih =>
    rename_i fr frs f _ _
    have hout := outDepth_nonneg (reg p f) f fr.label
    intro x hx
    obtain rfl | hx := List.mem_cons.mp hx
    · omega
    · have := ih x hx
      omega

/-- The block an activation is in, before and after the pass. -/
theorem At.block {fr : Frame} {f : Function} (hfr : At p fr f) (h : transform p = some p')
    (hfree : p.RegionFree) {l : Label} {b' : Block} (hb' : p'.block? fr.func l = some b') :
    ∃ b, f.block? l = some b ∧ b'.transfer = b.transfer ∧
      (l = fr.label → BlockSpec (reg p f) f b b') := by
  obtain ⟨f', hf', hb'⟩ := Option.bind_eq_some_iff.mp hb'
  obtain ⟨f₀, hf, -, hblock⟩ := transform_function h hf'
  obtain rfl : f = f₀ := Option.some.inj (hfr.func.symm.trans hf)
  have hfree' : f.RegionFree := hfree f (List.mem_of_find?_eq_some hf)
  rw [hblock, Option.map_eq_some_iff] at hb'
  obtain ⟨b, hb, rfl⟩ := hb'
  refine ⟨b, hb, by split <;> rfl, ?_⟩
  rintro rfl
  by_cases hreg : reg p f = true
  · simp only [hreg, if_true]
    exact blockSpec_newBlock hfree' hb hfr.reaches (hfr.handler hreg)
  · simp only [hreg]
    exact blockSpec_refl hfree' (Function.block?_mem hb)

theorem At.edge {fr : Frame} {f : Function} (hfr : At p fr f) {l' : Label} (hl' : l' ∈ f.succs fr.label)
    (hm : Meets p (.edge fr.func fr.label l')) : At p { fr with label := l' } f where
  func := hfr.func
  reaches := hfr.reaches.tail hl'
  handler hreg := (hm f hfr.func (.of_reg hreg)).1

/-- Control goes on to the start of a block. -/
theorem Inv.edge {d : ℤ} {fr : Frame} {frs : List Frame} {f : Function} {b' : Block} {l' : Label}
    (hfr : At p fr f) (hl' : l' ∈ f.succs fr.label) (hm : Meets p (.edge fr.func fr.label l'))
    (hd : d = fr.entry + outDepth (reg p f) f fr.label) (hb' : p'.block? fr.func l' = some b')
    (hw : Waits p fr.entry frs) :
    Inv p p' ⟨d, { fr with label := l' } :: frs, .run b'.statements⟩ := by
  refine .run (hfr.edge hl' hm) hb' (List.nil_append _).symm ?_ hw
  have hdepth : inDepth (reg p f) f l' = outDepth (reg p f) f fr.label :=
    inDepth_eq_outDepth hl' fun hreg => (hm f hfr.func (.of_reg hreg)).2
  simp [hd, hdepth]

/-- A call that waits goes on to its continuation or to its handler. -/
theorem Inv.resume {d : ℤ} {fr : Frame} {frs : List Frame} {b' c : Block} {l' : Label}
    (h : transform p = some p') (hfree : p.RegionFree) (hw : Waits p d (fr :: frs))
    (hb' : p'.block? fr.func fr.label = some b') (hl' : l' ∈ b'.transfer.labels)
    (hm : Meets p (.edge fr.func fr.label l')) (hc : p'.block? fr.func l' = some c) :
    Inv p p' ⟨d, { fr with label := l' } :: frs, .run c.statements⟩ := by
  cases hw with
  | cons hfr hd hw =>
    obtain ⟨b, hb, htrans, -⟩ := hfr.block h hfree hb'
    exact .edge hfr (by rwa [Function.succs_of_block? hb, ← htrans]) hm hd hc hw

/-- An activation begins. -/
theorem Inv.enter {g : Func} {f' : Function} {b' : Block} {d : ℤ} {frs : List Frame}
    (h : transform p = some p') (hf' : p'.function? g = some f')
    (hb' : f'.block? f'.start = some b') (hm : Meets p (.enter g)) (hw : Waits p d frs) :
    Inv p p' ⟨d, ⟨g, f'.start, d⟩ :: frs, .run b'.statements⟩ := by
  obtain ⟨f, hf, hstart, -⟩ := transform_function h hf'
  refine .run (f := f) ⟨hf, hstart ▸ .refl, fun hreg => ?_⟩
    (Option.bind_eq_some_iff.mpr ⟨f', hf', hb'⟩) (List.nil_append _).symm ?_ hw
  · exact hstart ▸ hm f hf (.of_reg hreg)
  · simp [inDepth, hstart]

/-- What is known where a block ends. -/
theorem Inv.at_exit (h : transform p = some p') (hfree : p.RegionFree) {d : ℤ} {fr : Frame}
    {frs : List Frame} {b' : Block} (hI : Inv p p' ⟨d, fr :: frs, .run []⟩)
    (hb' : p'.block? fr.func fr.label = some b') :
    ∃ f, At p fr f ∧ f.succs fr.label = b'.transfer.labels ∧ Waits p fr.entry frs ∧
      d = fr.entry + if leaves b'.transfer then 0 else outDepth (reg p f) f fr.label := by
  cases hI with
  | run hfr hb₁ hpre hd hw =>
    obtain rfl : b' = _ := Option.some.inj (hb'.symm.trans hb₁)
    obtain ⟨b, hb, htrans, hspec⟩ := hfr.block h hfree hb'
    refine ⟨_, hfr, by rw [Function.succs_of_block? hb, htrans], hw, ?_⟩
    rw [List.append_nil] at hpre
    rw [hd, ← hpre, htrans, ← Function.block?_label hb, (hspec rfl).exit]

/-- What is known where an exception passes through a call. -/
theorem depth_at_propagate (h : transform p = some p') (hfree : p.RegionFree) {d : ℤ} {fr : Frame}
    {frs : List Frame} {b' : Block} {args : List Var} {g : Func} {cont : Label}
    (hw : Waits p d (fr :: frs)) (hsite : Meets p (.raise (site (fr :: frs))))
    (hb' : p'.block? fr.func fr.label = some b')
    (ht : b'.transfer = .call args g (.nonTail cont .caller)) :
    fr.entry = d ∧ Waits p fr.entry frs := by
  cases hw with
  | cons hfr hd hw =>
    rename_i f
    obtain ⟨b, hb, htrans, -⟩ := hfr.block h hfree hb'
    refine ⟨?_, hw⟩
    have hout : outDepth (reg p f) f fr.label = 0 := by
      refine if_neg fun hreg => hreg.2 ?_
      exact hsite _ b hfr.func (.of_reg hreg.1) hb ⟨args, g, cont, by rw [← htrans, ht]⟩
    rw [hd, hout, add_zero]

/-- **A step keeps the invariant.** -/
theorem Inv.step (h : transform p = some p') (hfree : p.RegionFree) {σ σ' : State} {m : Move}
    (hI : Inv p p' σ) (hs : Step p' σ m σ') (hm : Meets p m) : Inv p p' σ' := by
  cases hs with
  | stmt =>
    cases hI with
    | run hfr hb' hpre hd hw =>
      refine .run hfr hb' (hpre.trans (List.append_cons ..)) ?_ hw
      simp only [hd, regionDelta_append, regionDelta_cons, regionDelta_nil]
      omega
  | jump hb hjump hl' hb' =>
    obtain ⟨f, hfr, hsuccs, hw, hd⟩ := hI.at_exit h hfree hb
    have hleaves : ∀ t, isJump t = true → leaves t = false := fun t ht => by
      cases t <;> simp_all [isJump, leaves]
    rw [hleaves _ hjump] at hd
    exact .edge hfr (hsuccs ▸ hl') hm hd hb' hw
  | call hb ht hr hg hstart =>
    obtain ⟨f, hfr, -, hw, hd⟩ := hI.at_exit h hfree hb
    have hleaves : ∀ args g r, r ≠ .tail → leaves (.call args g r) = false := fun _ _ r hr => by
      cases r <;> simp_all [leaves]
    rw [ht, hleaves _ _ _ hr] at hd
    exact .enter h hg hstart hm (.cons hfr hd hw)
  | tailCall hb ht hg hstart =>
    obtain ⟨f, hfr, -, hw, hd⟩ := hI.at_exit h hfree hb
    obtain rfl : _ = _ := by simpa [ht, leaves] using hd
    exact .enter h hg hstart hm hw
  | ret hb ht hb₁ ht₁ hcont =>
    obtain ⟨f, hfr, -, hw, hd⟩ := hI.at_exit h hfree hb
    obtain rfl : _ = _ := by simpa [ht, leaves] using hd
    exact .resume h hfree hw hb₁ (by simp [ht₁, Transfer.labels, Return.labels]) hm hcont
  | finish hb ht => exact .done
  | raise hb ht =>
    obtain ⟨f, hfr, -, hw, hd⟩ := hI.at_exit h hfree hb
    obtain rfl : _ = _ := by simpa [ht, leaves] using hd
    exact .raised hw hm
  | handle hb ht hl' =>
    cases hI with
    | raised hw _ =>
      exact .resume h hfree hw hb (by simp [ht, Transfer.labels, Return.labels, Handler.labels]) hm hl'
  | propagate hb ht =>
    cases hI with
    | raised hw hsite =>
      obtain ⟨hd, hw'⟩ := depth_at_propagate h hfree hw hsite hb ht
      exact .raised (hd ▸ hw') hm

/-- **The invariant is balance.** -/
theorem Inv.balanced (h : transform p = some p') (hfree : p.RegionFree) {σ : State}
    (hI : Inv p p' σ) : Balanced p' σ where
  above := by
    cases hI with
    | run hfr hb' hpre hd hw =>
      obtain ⟨b, hb, -, hspec⟩ := hfr.block h hfree hb'
      have habove := (hspec rfl).above _ ⟨_, hpre.symm⟩
      rw [Function.block?_label hb] at habove
      intro x hx
      dsimp only
      obtain rfl | hx := List.mem_cons.mp hx
      · omega
      · have := hw.entry_le x hx
        omega
    | raised hw _ => exact hw.entry_le
    | done => simp
  leaving fr hfr := by
    cases hfr with
    | ret hb ht =>
      obtain ⟨f, -, -, -, hd⟩ := hI.at_exit h hfree hb
      simpa [ht, leaves] using hd
    | raise hb ht =>
      obtain ⟨f, -, -, -, hd⟩ := hI.at_exit h hfree hb
      simpa [ht, leaves] using hd
    | tailCall hb ht =>
      obtain ⟨f, -, -, -, hd⟩ := hI.at_exit h hfree hb
      simpa [ht, leaves] using hd
    | propagate hb ht =>
      cases hI with
      | raised hw hsite => exact (depth_at_propagate h hfree hw hsite hb ht).1.symm

/-- **Runs that meet the condition are balanced.**  From the entry of any function at any depth, every
state of such a run has every activation at or above the depth it was entered at, and at exactly that
depth where it is left. -/
theorem transform_balanced {p p' : Program} (h : transform p = some p') (hfree : p.RegionFree)
    {g : Func} {d : ℤ} {ms : List Move} {σ : State} (hrun : Run p' g d ms σ)
    (hms : ∀ m ∈ ms, Meets p m) : Balanced p' σ := by
  refine Inv.balanced h hfree ?_
  induction hrun with
  | start hf hb => exact .enter h hf hb (hms _ (by simp)) .nil
  | snoc _ hs ih =>
    exact (ih fun m hm => hms m (List.mem_append_left _ hm)).step h hfree hs (hms _ (by simp))

/-! ## A handled call

`main` allocates on the stack, calls `g` with a handler, and returns from the continuation and from
the handler alike.  `g` returns or raises. -/

/-- The block of `main` that allocates and calls. -/
def callBlock (pushes : List Statement) : Block where
  args := []
  label := ⟨0⟩
  statements := pushes ++ [{ var := some ⟨0⟩, ty := .unit, exp := .tuple [] .stack }]
  transfer := .call [] ⟨1⟩ (.nonTail ⟨1⟩ (.handle ⟨2⟩))

/-- A block of `main` that returns. -/
def returnBlock (l : Label) (pops : List Statement) : Block where
  args := []
  label := l
  statements := pops
  transfer := .ret []

/-- `main`. -/
def caller (blocks : List Block) : Function where
  args := []
  blocks := blocks
  mayInline := true
  name := ⟨0⟩
  raises := none
  returns := some []
  start := ⟨0⟩

/-- `g`, ending in `t`. -/
def callee (t : Transfer) : Function where
  args := []
  blocks := [{ args := [], label := ⟨3⟩, statements := [], transfer := t }]
  mayInline := true
  name := ⟨1⟩
  raises := some []
  returns := some []
  start := ⟨3⟩

/-- `main` before the pass. -/
def callerIn : Function := caller [callBlock [], returnBlock ⟨1⟩ [], returnBlock ⟨2⟩ []]

/-- `main` after it: the handler closes the region twice. -/
def callerOut : Function :=
  caller [callBlock [regionPushStmt], returnBlock ⟨1⟩ [regionPopStmt],
    returnBlock ⟨2⟩ [regionPopStmt, regionPopStmt]]

/-- The program before the pass. -/
def handledIn (t : Transfer) : Program where
  functions := [callerIn, callee t]
  main := ⟨0⟩

/-- The program after it. -/
def handledOut (t : Transfer) : Program where
  functions := [callerOut, callee t]
  main := ⟨0⟩

theorem transform_handledIn : transform (handledIn (.raise [])) = some (handledOut (.raise [])) := rfl

theorem handledIn_regionFree (t : Transfer) : (handledIn t).RegionFree := by
  simp [Program.RegionFree, Function.RegionFree, handledIn, callerIn, caller, callee, callBlock,
    returnBlock, Statement.isPush, Statement.isPop]

/-- `main` up to its call. -/
theorem run_call (t : Transfer) : Run (handledOut t) ⟨0⟩ 0
    [.enter ⟨0⟩, .stmt, .stmt, .enter ⟨1⟩]
    ⟨1, [⟨⟨1⟩, ⟨3⟩, 1⟩, ⟨⟨0⟩, ⟨0⟩, 0⟩], .run []⟩ := by
  have hstart : Run (handledOut t) ⟨0⟩ 0 [.enter ⟨0⟩] ⟨0, [⟨⟨0⟩, ⟨0⟩, 0⟩],
      .run (callBlock [regionPushStmt]).statements⟩ :=
    .start (f := callerOut) (b := callBlock [regionPushStmt]) rfl rfl
  exact ((hstart.snoc .stmt).snoc .stmt).snoc
    (.call (b := callBlock [regionPushStmt]) (f := callee t) rfl rfl (by simp) rfl rfl)

/-- **The region depth is not always balanced**: when `g` raises, `main` returns from its handler one
below the depth it was entered at. -/
theorem transform_unbalanced :
    ¬ ∀ p p' : Program, transform p = some p' → p.RegionFree →
      ∀ g d ms σ, Run p' g d ms σ → Balanced p' σ := by
  intro h
  have hhandler := ((run_call (.raise [])).snoc (.raise rfl rfl)).snoc (.handle
    (b := callBlock [regionPushStmt]) (c := returnBlock ⟨2⟩ [regionPopStmt, regionPopStmt])
    rfl rfl rfl)
  have hreturn := (hhandler.snoc .stmt).snoc .stmt
  exact absurd ((h _ _ transform_handledIn (handledIn_regionFree _) _ _ _ _ hreturn).above
    ⟨⟨0⟩, ⟨2⟩, 0⟩ (by simp)) (by decide)

theorem handlerBlock_callerIn (h : HandlerBlock callerIn l) : l = ⟨2⟩ := by
  obtain ⟨b, hb, -, args, g, cont, ht⟩ := h
  simp only [callerIn, caller, List.mem_cons, List.not_mem_nil, or_false] at hb
  obtain rfl | rfl | rfl := hb
  · cases ht
    rfl
  · simp [returnBlock] at ht
  · simp [returnBlock] at ht

/-- When `g` returns, the handler is not entered, and the run is balanced. -/
theorem handled_balanced : ∃ ms σ, Run (handledOut (.ret [])) ⟨0⟩ 0 ms σ ∧
    σ.frames.map Frame.label = [⟨1⟩] ∧ Balanced (handledOut (.ret [])) σ := by
  have hreturn := ((run_call (.ret [])).snoc (.ret (e := callBlock [regionPushStmt])
    (c := returnBlock ⟨1⟩ [regionPopStmt]) rfl rfl rfl rfl rfl)).snoc .stmt
  refine ⟨_, _, hreturn, rfl, transform_balanced (p := handledIn (.ret [])) rfl
    (handledIn_regionFree _) hreturn ?_⟩
  have hcaller : ∀ f, (handledIn (.ret [])).function? ⟨0⟩ = some f → callerIn = f :=
    fun f hf => Option.some.inj hf
  have hcallee : ∀ f, (handledIn (.ret [])).function? ⟨1⟩ = some f → callee (.ret []) = f :=
    fun f hf => Option.some.inj hf
  have hmain : Meets (handledIn (.ret [])) (.enter ⟨0⟩) := by
    rintro f hf - hh
    obtain rfl := hcaller f hf
    exact absurd (handlerBlock_callerIn hh) (by decide)
  have hg : Meets (handledIn (.ret [])) (.enter ⟨1⟩) := by
    rintro f hf - ⟨b, hb, -, args, g, cont, ht⟩
    obtain rfl := hcallee f hf
    obtain rfl : b = _ := by simpa [callee] using hb
    simp at ht
  have hback : Meets (handledIn (.ret [])) (.edge ⟨0⟩ ⟨0⟩ ⟨1⟩) := by
    rintro f hf -
    obtain rfl := hcaller f hf
    exact ⟨fun hh => absurd (handlerBlock_callerIn hh) (by decide), by decide⟩
  simp only [List.cons_append, List.nil_append, List.forall_mem_cons]
  exact ⟨hmain, trivial, trivial, hg, hback, trivial, by simp⟩

end Regions

end MLton.Ssa
