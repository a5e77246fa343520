import MLton.Rssa.HeapCovered
import MLton.Rssa.Live

/-!
# Rssa/SignalCheck — every loop checks for signals

`signalCheck` asks for a signal check at the start of a function and at the headers of its loops.  A C call
that may switch threads checks for signals itself, and so the edges after such calls are left out of the
graph whose loops are looked for.  The blocks after them are then not reachable from the root; but what such
an edge goes to is the return of that C function alone, and so no edge leads to it any more.
-/

namespace MLton.Rssa.InsertChecks

variable {f : Function}

/-- `CFunction.maySwitchThreadsFrom`. -/
def maySwitchThreadsFrom (func : CFunction) : Bool :=
  match func.kind with
  | .runtime r => r.maySwitchThreadsFrom
  | _ => false

/-- A transfer after which `signalCheck` adds no edge. -/
def switchesThreads : Transfer → Bool
  | .ccall _ func _ => maySwitchThreadsFrom func
  | _ => false

/-- The graph of `signalCheck`. -/
def signalGraph (f : Function) : DirectedGraph Label where
  nodes := (f.blocks.map Block.label).reverse
  successors l :=
    match f.block? l with
    | some b => if switchesThreads b.transfer then [] else b.transfer.labels.reverse
    | none => []

/-- `signalCheck`: whether a block needs a signal check.  It fails on a label without a block, and where
`loopForestSteensgaard` does not end. -/
def signalCheck (f : Function) : Option (Label → Bool) := do
  if f.labels.any fun l => (f.block? l).isNone then none
  let g := signalGraph f
  let forest ← g.loopForestSteensgaard (g.nodes.length + 1) f.start
  return fun l => decide (l ∈ forest.headers) || decide (l = f.start)

/-- The block of a label ends with a C call that may switch threads. -/
def SwitchesThreads (f : Function) (l : Label) : Prop :=
  ∃ b, f.block? l = some b ∧ switchesThreads b.transfer = true

/-! ## The graph -/

theorem mem_successors_signalGraph {u w : Label} :
    w ∈ (signalGraph f).successors u ↔ w ∈ f.succs u ∧ ¬ SwitchesThreads f u := by
  simp only [signalGraph, Function.succs, SwitchesThreads]
  cases hb : f.block? u with
  | none => simp
  | some b => cases hs : switchesThreads b.transfer <;> simp [hs]

theorem mem_nodes_signalGraph (hf : Resolved f) {l : Label} (h : l ∈ f.labels) : l ∈ (signalGraph f).nodes := by
  obtain ⟨b, hb⟩ := Option.isSome_iff_exists.mp (hf l h)
  simp only [signalGraph, List.mem_reverse]
  exact Function.block?_label hb ▸ List.mem_map_of_mem (Function.block?_mem hb)

theorem closed_signalGraph (hf : Resolved f) : (signalGraph f).Closed := fun _ _ _ hw =>
  mem_nodes_signalGraph hf (mem_labels_of_mem_succs (mem_successors_signalGraph.mp hw).1)

/-! ## Coverage -/

/-- An edge of a path without a signal check: from a block that does not switch threads to one that needs
no check. -/
def Unchecked (f : Function) (needsSignalCheck : Label → Bool) (u w : Label) : Prop :=
  w ∈ f.succs u ∧ ¬ SwitchesThreads f u ∧ needsSignalCheck w = false

theorem signalCheck_eq_some {r : Label → Bool} (h : signalCheck f = some r) :
    Resolved f ∧ ∃ forest, (signalGraph f).loopForestSteensgaard ((signalGraph f).nodes.length + 1) f.start =
      some forest ∧ r = fun l => decide (l ∈ forest.headers) || decide (l = f.start) := by
  unfold signalCheck at h
  by_cases hlabels : f.labels.any (fun l => (f.block? l).isNone) = true
  · simp [hlabels] at h
  rw [if_neg hlabels] at h
  simp only [Option.pure_def, Option.bind_eq_bind, Option.bind_eq_some_iff, Option.some.injEq] at h
  obtain ⟨forest, hforest, rfl⟩ := h
  refine ⟨fun l hl => ?_, forest, hforest, rfl⟩
  simp only [List.any_eq_true, not_exists, not_and] at hlabels
  exact Option.isSome_iff_ne_none.mpr (by simpa using hlabels l hl)

/-- **No cycle is free of signal checks.** -/
theorem signalCheck_no_cycle {r : Label → Bool} (h : signalCheck f = some r) (l : Label) :
    ¬ Relation.TransGen (Unchecked f r) l l := by
  obtain ⟨hf, forest, hforest, rfl⟩ := signalCheck_eq_some h
  intro hc
  have hl : l ∈ (signalGraph f).nodes := by
    obtain ⟨u, -, hul⟩ := Relation.TransGen.tail'_iff.mp hc
    exact mem_nodes_signalGraph hf (mem_labels_of_mem_succs hul.1)
  refine DirectedGraph.loopForest_covers (closed_signalGraph hf) hforest hl ?_
  refine Relation.TransGen.mono (fun u w huw => ?_) _ _ hc
  obtain ⟨hsucc, hswitch, hneeds⟩ := huw
  refine ⟨mem_successors_signalGraph.mpr ⟨hsucc, hswitch⟩, fun hmem => ?_⟩
  simp [hmem] at hneeds

/-! ## The pass ends -/

/-- The kinds of the blocks are those that the transfers ask for. -/
def Kinded (f : Function) : Prop :=
  ∀ b ∈ f.blocks, b.transfer.KindsOk fun l => (f.block? l).map Block.kind

theorem exists_block_of_mem_succs {u w : Label} (h : w ∈ f.succs u) :
    ∃ b, f.block? u = some b ∧ w ∈ b.transfer.labels := by
  unfold Function.succs at h
  split at h
  · exact ⟨_, ‹_›, h⟩
  · cases h

/-- What goes to the return of a C function is a call of it. -/
theorem Transfer.KindsOk.eq_ccall {kind : Label → Option Kind} {t : Transfer} {l : Label} {func : CFunction}
    (ht : t.KindsOk kind) (hl : l ∈ t.labels) (hkind : kind l = some (.creturn func)) :
    ∃ args ret, t = .ccall args func ret := by
  cases ht with
  | @ccall args func' ret hret =>
    obtain rfl := Kind.creturn.inj (Option.some.inj ((hret l (Option.mem_toList.mp hl)).symm.trans hkind))
    exact ⟨args, ret, rfl⟩
  | nonTail hc hh =>
    obtain rfl | hl := List.mem_cons.mp hl
    · cases hkind.symm.trans hc
    · cases hkind.symm.trans (hh l hl)
  | @call _ _ ret hret =>
    rw [Transfer.labels, hret] at hl
    cases hl
  | goto hdst =>
    obtain rfl := List.mem_singleton.mp hl
    cases hkind.symm.trans hdst
  | raise => cases hl
  | ret => cases hl
  | switch hs => cases hkind.symm.trans (hs l hl)

/-- A block after a C call that may switch threads is entered from such calls only. -/
theorem switchesThreads_of_mem (hk : Kinded f) {u v w : Label} (hu : w ∈ f.succs u)
    (hswitch : SwitchesThreads f u) (hv : w ∈ f.succs v) : SwitchesThreads f v := by
  obtain ⟨b, hb, hwb⟩ := exists_block_of_mem_succs hu
  obtain ⟨b', hb', hwb'⟩ := exists_block_of_mem_succs hv
  obtain ⟨b₀, hb₀, hswitch⟩ := hswitch
  obtain rfl := Option.some.inj (hb.symm.trans hb₀)
  obtain ⟨args, func, ret, ht⟩ : ∃ args func ret, b.transfer = .ccall args func ret := by
    cases htransfer : b.transfer <;> simp_all [switchesThreads]
  have hkinds := hk b (Function.block?_mem hb)
  rw [ht] at hkinds hwb hswitch
  obtain ⟨hret⟩ := hkinds
  obtain ⟨args', ret', ht'⟩ := Transfer.KindsOk.eq_ccall (hk b' (Function.block?_mem hb')) hwb'
    (hret w (Option.mem_toList.mp hwb))
  exact ⟨b', hb', by rw [ht']; exact hswitch⟩

/-- Every block is reached in the graph from the start, or from a block that no edge leads to. -/
theorem seeded_signalGraph (hf : Resolved f) (hk : Kinded f) (hreach : ∀ b ∈ f.blocks, Reaches f b.label) :
    DirectedGraph.Seeded (signalGraph f) fun n => n = f.start := by
  intro l hl
  obtain ⟨b, hb, rfl⟩ : ∃ b ∈ f.blocks, b.label = l := by simpa [signalGraph] using hl
  have hpath := hreach b hb
  generalize b.label = l at hpath
  induction hpath with
  | refl => exact ⟨f.start, mem_nodes_signalGraph hf List.mem_cons_self, .refl, .inl (by simp)⟩
  | @tail u w _ huw ih =>
    by_cases hswitch : SwitchesThreads f u
    · refine ⟨w, mem_nodes_signalGraph hf (mem_labels_of_mem_succs huw), .refl, .inr fun v _ hvw => ?_⟩
      obtain ⟨hv, hno⟩ := mem_successors_signalGraph.mp hvw
      exact hno (switchesThreads_of_mem hk huw hswitch hv)
    · obtain ⟨s, hs, hsu, hseed⟩ := ih
      exact ⟨s, hs, hsu.tail (mem_successors_signalGraph.mpr ⟨huw, hswitch⟩), hseed⟩

/-- **The pass ends** on a function all of whose blocks control can get to. -/
theorem signalCheck_total (hf : Resolved f) (hk : Kinded f) (hreach : ∀ b ∈ f.blocks, Reaches f b.label) :
    ∃ r, signalCheck f = some r := by
  obtain ⟨forest, hforest⟩ :=
    DirectedGraph.loopForest_total_of_seeded (closed_signalGraph hf) (seeded_signalGraph hf hk hreach)
  unfold signalCheck
  rw [if_neg]
  · exact ⟨_, by simp [hforest]; rfl⟩
  · simpa using fun l hl => Option.isSome_iff_ne_none.mp (hf l hl)

/-- **Signal checks cover every loop**: the start needs one, no cycle of blocks is without a check and a C
call that may switch threads; and the pass ends on a function all of whose blocks control can get to. -/
theorem signalCheck_covers (f : Function) :
    (∀ r, signalCheck f = some r → r f.start = true ∧ ∀ l, ¬ Relation.TransGen (Unchecked f r) l l) ∧
      (Resolved f → Kinded f → (∀ b ∈ f.blocks, Reaches f b.label) → ∃ r, signalCheck f = some r) := by
  refine ⟨fun r h => ⟨?_, signalCheck_no_cycle h⟩, signalCheck_total⟩
  obtain ⟨-, forest, -, rfl⟩ := signalCheck_eq_some h
  simp

/-- A C function that may switch threads. -/
def switchTo : CFunction where
  kind := .runtime
    { bytesNeeded := none, ensuresBytesFree := none, mayGC := true, maySwitchThreadsFrom := true
      maySwitchThreadsTo := true, modifiesFrontier := true, readsStackTop := true, writesStackTop := true
      readsRegionTop := false, writesRegionTop := false }
  target := 0

/-- A loop that is entered from the return of `switchTo` alone. -/
def loopAfterSwitch : Function where
  args := []
  blocks := [⟨[], .jump, ⟨0⟩, [], .ccall [] switchTo (some ⟨1⟩)⟩, ⟨[], .creturn switchTo, ⟨1⟩, [], .goto [] ⟨2⟩⟩,
    ⟨[], .jump, ⟨2⟩, [], .goto [] ⟨2⟩⟩]
  name := ⟨0⟩
  raises := none
  returns := none
  start := ⟨0⟩

theorem signalCheck_covers_loopAfterSwitch : ∃ r, signalCheck loopAfterSwitch = some r := by
  refine (signalCheck_covers loopAfterSwitch).2 ?_ ?_ ?_
  · show ∀ l ∈ loopAfterSwitch.labels, _
    decide
  · simp only [Kinded, loopAfterSwitch, List.forall_mem_cons]
    refine ⟨.ccall (by decide), .goto (by decide), .goto (by decide), by simp⟩
  · have hone : Reaches loopAfterSwitch ⟨1⟩ := .single (show _ ∈ loopAfterSwitch.succs _ by decide)
    simp only [loopAfterSwitch, List.forall_mem_cons]
    exact ⟨.refl, hone, hone.tail (show _ ∈ loopAfterSwitch.succs _ by decide), by simp⟩

end MLton.Rssa.InsertChecks
