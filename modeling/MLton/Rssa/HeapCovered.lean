import Mathlib.Data.List.Chain
import MLton.Rssa.InsertChecks

/-!
# Rssa/HeapCovered — every allocation is covered by a check

An edge to a block without a check is *free*.  The headers of the loop forest leave no cycle of free
edges, so that `maxPath` ends, and what it returns bounds what is allocated along every path of free
edges.
-/

namespace MLton.Rssa.InsertChecks

variable {T : Target} {tyconTy : ObjptrTycon → ObjectType} {fullCFG loopExits : Bool} {f : Function}

/-! ## Marks -/

/-- Marking a node keeps the marks. -/
theorem noteHeader_mono {s : Classes} {l : Label} (n : Node) (h : s.mayHaveCheck l = true) :
    (noteHeader s n).mayHaveCheck l = true := by
  cases n with
  | none => exact h
  | some l' =>
    by_cases hl : l = l'
    · subst hl
      simp [noteHeader]
    · simpa [noteHeader, Function.update_of_ne hl] using h

theorem foldl_noteHeader_mono {l : Label} : ∀ (ns : List Node) {s : Classes},
    s.mayHaveCheck l = true → (ns.foldl noteHeader s).mayHaveCheck l = true
  | [], _, h => h
  | n :: ns, _, h => foldl_noteHeader_mono ns (noteHeader_mono n h)

theorem foldl_noteHeader_mem {l : Label} : ∀ (ns : List Node) {s : Classes}, some l ∈ ns →
    (ns.foldl noteHeader s).mayHaveCheck l = true
  | n :: ns, s, h => by
    obtain rfl | h := List.mem_cons.mp h
    · exact foldl_noteHeader_mono ns (by simp [noteHeader])
    · exact foldl_noteHeader_mem ns h

theorem foldl_noteClass_mayHaveCheck (c : ℕ) : ∀ (ns : List Node) (s : Classes),
    (ns.foldl (noteClass c) s).mayHaveCheck = s.mayHaveCheck
  | [], _ => rfl
  | n :: ns, s => by
    rw [List.foldl_cons, foldl_noteClass_mayHaveCheck c ns]
    cases n <;> rfl

mutual

theorem setClass_mono {l : Label} : ∀ (t : LoopForest Node) {s : Classes},
    s.mayHaveCheck l = true → (setClass t s).mayHaveCheck l = true
  | .mk loops ns, s, h => by
    rw [setClass]
    exact setClasses_mono loops (by rwa [foldl_noteClass_mayHaveCheck])

theorem setClasses_mono {l : Label} : ∀ (ts : Loops Node) {s : Classes},
    s.mayHaveCheck l = true → (setClasses ts s).mayHaveCheck l = true
  | .nil, s, h => by rwa [setClasses]
  | .cons headers child rest, s, h => by
    rw [setClasses]
    exact setClasses_mono rest (setClass_mono child (foldl_noteHeader_mono headers h))

end

mutual

/-- **Every header is marked.** -/
theorem setClass_headers {l : Label} : ∀ (t : LoopForest Node) {s : Classes}, some l ∈ t.headers →
    (setClass t s).mayHaveCheck l = true
  | .mk loops ns, s, h => by
    rw [setClass]
    exact setClasses_headers loops (by simpa [LoopForest.headers] using h)

theorem setClasses_headers {l : Label} : ∀ (ts : Loops Node) {s : Classes}, some l ∈ ts.headers →
    (setClasses ts s).mayHaveCheck l = true
  | .nil, s, h => by simp [Loops.headers] at h
  | .cons headers child rest, s, h => by
    rw [setClasses]
    simp only [Loops.headers, List.mem_append] at h
    obtain (h | h) | h := h
    · exact setClasses_mono rest (setClass_mono child (foldl_noteHeader_mem headers h))
    · exact setClasses_mono rest (setClass_headers child h)
    · exact setClasses_headers rest h

end

/-! ## The graph -/

/-- Every label of the function names a block. -/
def Resolved (f : Function) : Prop := ∀ l ∈ f.labels, (f.block? l).isSome = true

theorem mem_labels_of_mem_succs {l l' : Label} (h : l' ∈ f.succs l) : l' ∈ f.labels := by
  unfold Function.succs at h
  split at h
  · rename_i b hb
    exact List.mem_cons_of_mem _
      (List.mem_flatMap.mpr ⟨b, Function.block?_mem hb, List.mem_cons_of_mem _ h⟩)
  · simp at h

theorem mem_nodes_of_mem_labels (hf : Resolved f) {l : Label} (h : l ∈ f.labels) :
    some l ∈ (graph fullCFG f).nodes := by
  obtain ⟨b, hb⟩ := Option.isSome_iff_exists.mp (hf l h)
  have hl : l ∈ f.blocks.map Block.label :=
    Function.block?_label hb ▸ List.mem_map_of_mem (Function.block?_mem hb)
  simpa [graph] using hl

theorem mem_successors_some {u w : Label} : some w ∈ (graph fullCFG f).successors (some u) ↔
    w ∈ f.succs u ∧ (fullCFG = true ∨ entries f w = false) := by
  simp [graph]

theorem closed_graph (hf : Resolved f) : (graph fullCFG f).Closed := by
  intro n _ m hm
  cases n with
  | none =>
    simp only [graph, List.mem_map, List.mem_reverse, List.mem_cons] at hm
    obtain ⟨l, hl, rfl⟩ := hm
    refine mem_nodes_of_mem_labels hf ?_
    obtain rfl | hl := hl
    · exact List.mem_cons_self ..
    · cases fullCFG with
      | true => simp at hl
      | false =>
        simp only [Bool.false_eq_true, if_false, List.mem_flatMap, List.mem_filter] at hl
        obtain ⟨b, hb, hl, -⟩ := hl
        exact List.mem_cons_of_mem _ (List.mem_flatMap.mpr ⟨b, hb, List.mem_cons_of_mem _ hl⟩)
  | some u =>
    cases m with
    | none => simp [graph] at hm
    | some w =>
      exact mem_nodes_of_mem_labels hf (mem_labels_of_mem_succs (mem_successors_some.mp hm).1)

/-! ## Free edges -/

/-- An edge of the function to a block without a check. -/
def Free (f : Function) (mark : Label → Bool) (u w : Label) : Prop :=
  w ∈ f.succs u ∧ mark w = false

/-- What a successful run of the pass is made of. -/
structure Made (T : Target) (tyconTy : ObjptrTycon → ObjectType) (fullCFG loopExits : Bool)
    (f : Function) (r : LimitChecks) (forest : LoopForest Node) (s : Classes) : Prop where
  resolved : Resolved f
  builds : (graph fullCFG f).loopForestSteensgaard ((graph fullCFG f).nodes.length + 1) none
    = some forest
  classes : s = setClass forest
    { counter := 0, classes := fun _ => none, mayHaveCheck := entries f }
  mark : r.mayHaveCheck = fun l => s.mayHaveCheck l ||
    (loopExits && isLoopExit (allocOf T tyconTy f) (graph fullCFG f) f s l)
  maxPath : r.maxPath = maxPath (graphSuccs (graph fullCFG f)) r.mayHaveCheck
    (allocOf T tyconTy f) (f.blocks.length + 1)

theorem limitCheckCoalesce_made {r : LimitChecks}
    (h : limitCheckCoalesce T tyconTy fullCFG loopExits f = some r) :
    ∃ forest s, Made T tyconTy fullCFG loopExits f r forest s := by
  unfold limitCheckCoalesce at h
  by_cases hlabels : f.labels.any (fun l => (f.block? l).isNone) = true
  · simp [hlabels] at h
  by_cases hsizes : f.blocks.any (fun b => (objectBytesAllocated T tyconTy b).isNone) = true
  · simp [hlabels, hsizes] at h
  rw [if_neg hlabels, if_neg hsizes] at h
  simp only [Option.pure_def, Option.bind_eq_bind, Option.bind_eq_some_iff,
    Option.some.injEq] at h
  obtain ⟨forest, hforest, rfl⟩ := h
  refine ⟨forest, _, fun l hl => ?_, hforest, rfl, rfl, rfl⟩
  simp only [List.any_eq_true, not_exists, not_and] at hlabels
  exact Option.isSome_iff_ne_none.mpr (by simpa using hlabels l hl)

section Made

variable {r : LimitChecks} {forest : LoopForest Node} {s : Classes}

theorem Made.entries (h : Made T tyconTy fullCFG loopExits f r forest s) {l : Label}
    (hl : entries f l = true) : r.mayHaveCheck l = true := by
  rw [h.mark, h.classes]
  simp only [Bool.or_eq_true]
  exact Or.inl (setClass_mono forest hl)

theorem Made.headers (h : Made T tyconTy fullCFG loopExits f r forest s) {l : Label}
    (hl : some l ∈ forest.headers) : r.mayHaveCheck l = true := by
  rw [h.mark, h.classes]
  simp only [Bool.or_eq_true]
  exact Or.inl (setClass_headers forest hl)

/-- A free edge is an edge of the graph. -/
theorem Made.mem_graphSuccs (h : Made T tyconTy fullCFG loopExits f r forest s) {u w : Label}
    (huw : Free f r.mayHaveCheck u w) : some w ∈ (graph fullCFG f).successors (some u) := by
  refine mem_successors_some.mpr ⟨huw.1, Or.inr (Bool.eq_false_iff.mpr fun he => ?_)⟩
  have := h.entries he
  simp [huw.2] at this

/-- **No cycle is free of checks.** -/
theorem Made.no_cycle (h : Made T tyconTy fullCFG loopExits f r forest s) (l : Label) :
    ¬ Relation.TransGen (Free f r.mayHaveCheck) l l := by
  intro hc
  have hl : some l ∈ (graph fullCFG f).nodes := by
    obtain ⟨u, -, hul⟩ := Relation.TransGen.tail'_iff.mp hc
    exact mem_nodes_of_mem_labels h.resolved (mem_labels_of_mem_succs hul.1)
  refine DirectedGraph.loopForest_covers (closed_graph h.resolved) h.builds hl ?_
  refine Relation.TransGen.lift some (fun u w huw => ?_) _ _ hc
  refine ⟨h.mem_graphSuccs huw, fun hmem => ?_⟩
  have := h.headers hmem
  simp [huw.2] at this

end Made

/-! ## `maxPath` -/

section MaxPath

variable {succs : Label → List Label} {mark : Label → Bool} {alloc : Label → ℕ}

/-- `x` bytes are enough from `l` on, up to the next check. -/
def Enough (E : Label → Label → Prop) (alloc : Label → ℕ) (l : Label) (x : ℕ) : Prop :=
  ∀ ls, List.IsChain E (l :: ls) → ((l :: ls).map alloc).sum ≤ x

theorem Enough.mono {E : Label → Label → Prop} {l : Label} {x y : ℕ} (h : Enough E alloc l x)
    (hxy : x ≤ y) : Enough E alloc l y :=
  fun ls hls => Nat.le_trans (h ls hls) hxy

/-- The entries of the table are enough. -/
def Valid (E : Label → Label → Prop) (alloc : Label → ℕ) (a : Memo) : Prop :=
  ∀ l x, a l = some x → Enough E alloc l x

/-- An unmarked successor. -/
def Next (succs : Label → List Label) (mark : Label → Bool) (u w : Label) : Prop :=
  w ∈ succs u ∧ mark w = false

/-- The successors, one after the other. -/
theorem foldl_maxPathStep (rec : Memo → Label → Option (ℕ × Memo)) {E : Label → Label → Prop} :
    ∀ (ws : List Label) (acc : ℕ × Memo), Valid E alloc acc.2 →
      (∀ w ∈ ws, mark w = false → ∀ a, Valid E alloc a →
        ∃ x a', rec a w = some (x, a') ∧ Enough E alloc w x ∧ Valid E alloc a') →
      ∃ r, ws.foldlM (maxPathStep mark rec) acc = some r ∧ Valid E alloc r.2 ∧ acc.1 ≤ r.1 ∧
        ∀ w ∈ ws, mark w = false → Enough E alloc w r.1
  | [], acc, hacc, _ => ⟨acc, rfl, hacc, Nat.le_refl _, by simp⟩
  | w :: ws, acc, hacc, hrec => by
    have hws := fun x hx => hrec x (List.mem_cons_of_mem _ hx)
    rw [List.foldlM_cons]
    by_cases hw : mark w = true
    · obtain ⟨r, hr, hvalid, hle, hall⟩ := foldl_maxPathStep rec ws acc hacc hws
      refine ⟨r, by simpa [maxPathStep, hw] using hr, hvalid, hle, fun x hx hxm => ?_⟩
      obtain rfl | hx := List.mem_cons.mp hx
      · simp [hxm] at hw
      · exact hall x hx hxm
    · have hw : mark w = false := Bool.eq_false_iff.mpr hw
      obtain ⟨x, a', hx, henough, hvalid'⟩ := hrec w (List.mem_cons_self ..) hw acc.2 hacc
      obtain ⟨r, hr, hvalid, hle, hall⟩ := foldl_maxPathStep rec ws (max acc.1 x, a') hvalid' hws
      refine ⟨r, by simpa [maxPathStep, hw, hx] using hr, hvalid,
        Nat.le_trans (Nat.le_max_left ..) hle, fun y hy hym => ?_⟩
      obtain rfl | hy := List.mem_cons.mp hy
      · exact henough.mono (Nat.le_trans (Nat.le_max_right ..) hle)
      · exact hall y hy hym

/-- **`maxPath` ends, and is enough**, when the recursion may go deeper than the longest path. -/
theorem maxPath_spec : ∀ (k : ℕ) (a : Memo) (l : Label), Valid (Next succs mark) alloc a →
    (∀ ls, List.IsChain (Next succs mark) (l :: ls) → ls.length < k) →
      ∃ x a', maxPath succs mark alloc k a l = some (x, a') ∧ Enough (Next succs mark) alloc l x ∧
        Valid (Next succs mark) alloc a'
  | 0, _, _, _, hk => absurd (hk [] (List.isChain_singleton _)) (Nat.not_lt_zero _)
  | k + 1, a, l, ha, hk => by
    rw [maxPath]
    cases hal : a l with
    | some x => exact ⟨x, a, rfl, ha l x hal, ha⟩
    | none =>
      obtain ⟨r, hr, hvalid, -, hall⟩ := foldl_maxPathStep (maxPath succs mark alloc k)
        (succs l) (0, a) ha
        (fun w hw hwm a' ha' => maxPath_spec k a' w ha' fun ls hls =>
          Nat.succ_lt_succ_iff.mp (hk (w :: ls) (List.isChain_cons_cons.mpr ⟨⟨hw, hwm⟩, hls⟩)))
      have henough : Enough (Next succs mark) alloc l (alloc l + r.1) := by
        intro ls hls
        cases ls with
        | nil => simp
        | cons w ls =>
          obtain ⟨hlw, hls⟩ := List.isChain_cons_cons.mp hls
          have := hall w hlw.1 hlw.2 ls hls
          simp only [List.map_cons, List.sum_cons] at this ⊢
          omega
      refine ⟨_, _, by rw [hr]; rfl, henough, fun l' x hx => ?_⟩
      by_cases hl : l' = l
      · subst hl
        simp only [Function.update_self, Option.some.injEq] at hx
        exact hx ▸ henough
      · exact hvalid l' x (by simpa [Function.update_of_ne hl] using hx)

end MaxPath

/-! ## The whole pass -/

/-- The tables `maxPath` works with: the empty one, and what calls make of it. -/
inductive LimitChecks.Memos (r : LimitChecks) (f : Function) : Memo → Prop where
  | empty : r.Memos f fun _ => none
  | call {a a' : Memo} {l : Label} {x : ℕ} : r.Memos f a → (f.block? l).isSome = true →
      r.maxPath a l = some (x, a') → r.Memos f a'

/-- **Every allocation is covered.**  The start has a check; no cycle is free of checks; whatever calls
came before, the check of a block asks for a definite number of bytes, which covers everything
allocated from there along free edges, and so does the amount a block is entered with. -/
structure Covered (T : Target) (tyconTy : ObjptrTycon → ObjectType) (f : Function)
    (r : LimitChecks) : Prop where
  start : r.mayHaveCheck f.start = true
  cycle : ∀ l, ¬ Relation.TransGen (Free f r.mayHaveCheck) l l
  check : ∀ a l, r.Memos f a → (f.block? l).isSome = true → r.mayHaveCheck l = true →
    ∃ x a', r.blockLimitCheckAmount a l = some (x, a') ∧ r.Memos f a' ∧
      Enough (Free f r.mayHaveCheck) (allocOf T tyconTy f) l x
  ensure : ∀ a l, r.Memos f a → (f.block? l).isSome = true →
    ∃ x a', r.ensureFree a l = some (x, a') ∧ r.Memos f a' ∧
      Enough (Free f r.mayHaveCheck) (allocOf T tyconTy f) l x

section Made

variable {r : LimitChecks} {forest : LoopForest Node} {s : Classes}

/-- In the graph, the unmarked successors are the free edges. -/
theorem Made.next_iff (h : Made T tyconTy fullCFG loopExits f r forest s) {u w : Label} :
    Next (graphSuccs (graph fullCFG f)) r.mayHaveCheck u w ↔ Free f r.mayHaveCheck u w := by
  have hmem : w ∈ graphSuccs (graph fullCFG f) u ↔
      some w ∈ (graph fullCFG f).successors (some u) := by simp [graphSuccs]
  refine ⟨fun huw => ⟨(mem_successors_some.mp (hmem.mp huw.1)).1, huw.2⟩, fun huw => ?_⟩
  exact ⟨hmem.mpr (h.mem_graphSuccs huw), huw.2⟩

/-- A path of free edges visits no block twice. -/
theorem Made.length_lt (h : Made T tyconTy fullCFG loopExits f r forest s) {l : Label}
    (hl : (f.block? l).isSome = true) {ls : List Label}
    (hls : List.IsChain (Free f r.mayHaveCheck) (l :: ls)) :
    ls.length < f.blocks.length + 1 := by
  have hpair : List.Pairwise (Relation.TransGen (Free f r.mayHaveCheck)) (l :: ls) :=
    List.isChain_iff_pairwise.mp (hls.imp fun _ _ huw => Relation.TransGen.single huw)
  have hnodup : (l :: ls).Nodup := List.Pairwise.imp (fun {u w} huw (heq : u = w) =>
    h.no_cycle u (by rw [← heq] at huw; exact huw)) hpair
  have hblock : ∀ (l : Label) (ls : List Label), (f.block? l).isSome = true →
      List.IsChain (Free f r.mayHaveCheck) (l :: ls) → l :: ls ⊆ f.blocks.map Block.label := by
    intro l ls
    induction ls generalizing l with
    | nil =>
      intro hl _
      obtain ⟨b, hb⟩ := Option.isSome_iff_exists.mp hl
      exact List.cons_subset.mpr ⟨Function.block?_label hb ▸
        List.mem_map_of_mem (Function.block?_mem hb), by simp⟩
    | cons w ws ih =>
      intro hl hls
      obtain ⟨hlw, hls⟩ := List.isChain_cons_cons.mp hls
      obtain ⟨b, hb⟩ := Option.isSome_iff_exists.mp hl
      exact List.cons_subset.mpr ⟨Function.block?_label hb ▸
        List.mem_map_of_mem (Function.block?_mem hb),
        ih w (h.resolved w (mem_labels_of_mem_succs hlw.1)) hls⟩
  have hle := (List.Nodup.subperm hnodup (hblock l ls hl hls)).length_le
  simp only [List.length_cons, List.length_map] at hle
  omega

theorem Made.maxPath_spec (h : Made T tyconTy fullCFG loopExits f r forest s) {a : Memo}
    {l : Label} (ha : Valid (Free f r.mayHaveCheck) (allocOf T tyconTy f) a)
    (hl : (f.block? l).isSome = true) :
    ∃ x a', r.maxPath a l = some (x, a') ∧
      Enough (Free f r.mayHaveCheck) (allocOf T tyconTy f) l x ∧
        Valid (Free f r.mayHaveCheck) (allocOf T tyconTy f) a' := by
  have hE : Next (graphSuccs (graph fullCFG f)) r.mayHaveCheck = Free f r.mayHaveCheck := by
    funext u w
    exact propext h.next_iff
  rw [h.maxPath, ← hE]
  exact InsertChecks.maxPath_spec _ a l (hE ▸ ha) fun ls hls => h.length_lt hl (hE ▸ hls)

theorem Made.valid (h : Made T tyconTy fullCFG loopExits f r forest s) {a : Memo}
    (ha : r.Memos f a) : Valid (Free f r.mayHaveCheck) (allocOf T tyconTy f) a := by
  induction ha with
  | empty => exact fun _ _ h => by simp at h
  | call _ hl hcall ih =>
    obtain ⟨x, a', hx, -, hvalid⟩ := h.maxPath_spec ih hl
    obtain ⟨-, rfl⟩ := Prod.mk.inj (Option.some.inj (hcall.symm.trans hx))
    exact hvalid

theorem Made.covered (h : Made T tyconTy fullCFG loopExits f r forest s) :
    Covered T tyconTy f r := by
  have hensure : ∀ a l, r.Memos f a → (f.block? l).isSome = true →
      ∃ x a', r.maxPath a l = some (x, a') ∧ r.Memos f a' ∧
        Enough (Free f r.mayHaveCheck) (allocOf T tyconTy f) l x := by
    intro a l ha hl
    obtain ⟨x, a', hx, henough, -⟩ := h.maxPath_spec (h.valid ha) hl
    exact ⟨x, a', hx, ha.call hl hx, henough⟩
  refine ⟨h.entries (by simp [InsertChecks.entries]), h.no_cycle, fun a l ha hl hmark => ?_, hensure⟩
  rw [LimitChecks.blockLimitCheckAmount, if_pos hmark]
  exact hensure a l ha hl

end Made

/-- Control can get to the label from the start. -/
def Reaches (f : Function) (l : Label) : Prop :=
  Relation.ReflTransGen (Dfs.Edge f.succs) f.start l

/-- A block control can get to is reachable from the root of the graph. -/
theorem reaches_graph {l : Label} (h : Reaches f l) : (graph fullCFG f).Reaches none (some l) := by
  induction h with
  | refl => exact .single (by simp [Dfs.Edge, graph])
  | tail hu huw ih =>
    rename_i u w
    replace huw : w ∈ f.succs u := huw
    by_cases hentry : fullCFG = false ∧ entries f w = true
    · refine .single ?_
      obtain ⟨rfl, hentry⟩ := hentry
      unfold Function.succs at huw
      split at huw
      · rename_i b hb
        simp only [Dfs.Edge, graph, Bool.false_eq_true, if_false, List.mem_map, List.mem_reverse,
          List.mem_cons, List.mem_flatMap, List.mem_filter]
        exact ⟨w, Or.inr ⟨b, Function.block?_mem hb, huw, hentry⟩, rfl⟩
      · simp at huw
    · refine ih.tail (mem_successors_some.mpr ⟨huw, ?_⟩)
      cases fullCFG <;> simp_all

/-- **The pass ends** on a function all of whose blocks control can get to. -/
theorem limitCheckCoalesce_total (hf : Resolved f)
    (hsize : ∀ b ∈ f.blocks, (objectBytesAllocated T tyconTy b).isSome = true)
    (hreach : ∀ b ∈ f.blocks, Reaches f b.label) :
    ∃ r, limitCheckCoalesce T tyconTy fullCFG loopExits f = some r := by
  obtain ⟨forest, hforest⟩ := DirectedGraph.loopForest_total
    (show (graph fullCFG f).Closed from closed_graph hf) (List.mem_cons_self ..) fun n hn => by
      cases n with
      | none => exact .refl
      | some l =>
        obtain ⟨b, hb, rfl⟩ : ∃ b ∈ f.blocks, b.label = l := by simpa [graph] using hn
        exact reaches_graph (hreach b hb)
  unfold limitCheckCoalesce
  rw [if_neg, if_neg]
  · exact ⟨_, by simp [hforest]; rfl⟩
  · simpa using fun b hb => Option.isSome_iff_ne_none.mp (hsize b hb)
  · simpa using fun l hl => Option.isSome_iff_ne_none.mp (hf l hl)

/-- **The heap checks of a function cover its allocations**: whatever `limitCheckCoalesce` computes is
covered, and it computes something for every function all of whose blocks control can get to. -/
theorem limitCheckCoalesce_covered (T : Target) (tyconTy : ObjptrTycon → ObjectType)
    (fullCFG loopExits : Bool) (f : Function) :
    (∀ r, limitCheckCoalesce T tyconTy fullCFG loopExits f = some r → Covered T tyconTy f r) ∧
      (Resolved f → (∀ b ∈ f.blocks, (objectBytesAllocated T tyconTy b).isSome = true) →
        (∀ b ∈ f.blocks, Reaches f b.label) →
          ∃ r, limitCheckCoalesce T tyconTy fullCFG loopExits f = some r) := by
  refine ⟨fun r h => ?_, limitCheckCoalesce_total⟩
  obtain ⟨forest, s, hmade⟩ := limitCheckCoalesce_made h
  exact hmade.covered

end MLton.Rssa.InsertChecks
