import MLton.Rssa.ChunkifyCollect

/-!
# Rssa/ChunkifyCoalesce — coalescing makes a legal partition within the limit

The initial partition has a class for each block, numbered in the order of the blocks, and joins those that jump
to one another and no others (`Initial`).  Coarsening only joins further, and only up to the limit: a chunk of the
result is one class of the initial partition, or its blocks' sizes add up to the limit at most.
-/

namespace MLton.Rssa.Chunkify

open Batteries.UnionFind

variable {p : Program} {bs js : List Block} {fs : List Function} {s : CoalesceState} {n i j : ℕ}
  {labelClass : Label → Option ℕ}

/-- The classes of the blocks `bs` are numbered in order. -/
structure Numbered (bs : List Block) (n : ℕ) (labelClass : Label → Option ℕ) : Prop where
  length : n = bs.length
  iff : ∀ l i, labelClass l = some i ↔ (bs.map Block.label)[i]? = some l

theorem Numbered.nil : Numbered [] 0 fun _ => none := ⟨rfl, by simp⟩

theorem Numbered.exists (h : Numbered bs n labelClass) {l : Label} (hl : l ∈ bs.map Block.label) :
    ∃ i, labelClass l = some i :=
  (List.mem_iff_getElem?.mp hl).imp fun i hi => (h.iff l i).mpr hi

theorem Numbered.lt (h : Numbered bs n labelClass) {l : Label} (hl : labelClass l = some i) : i < n := by
  rw [h.length, ← List.length_map (f := Block.label)]
  exact (List.getElem?_eq_some_iff.mp ((h.iff l i).mp hl)).1

theorem Numbered.eq_none (h : Numbered bs n labelClass) {l : Label} (hl : l ∉ bs.map Block.label) :
    labelClass l = none := by
  by_contra hne
  obtain ⟨i, hi⟩ := Option.ne_none_iff_exists'.mp hne
  exact hl (List.mem_of_getElem? ((h.iff l i).mp hi))

/-- The class of a new block. -/
theorem Numbered.setOnce (h : Numbered bs n labelClass) {b : Block} (hb : b.label ∉ bs.map Block.label) :
    setOnce labelClass b.label n = some (Function.update labelClass b.label (some n)) ∧
      Numbered (bs ++ [b]) (n + 1) (Function.update labelClass b.label (some n)) := by
  refine ⟨by simp [Chunkify.setOnce, h.eq_none hb], by simp [h.length], fun l i => ?_⟩
  rw [List.map_append, List.map_singleton]
  by_cases hl : l = b.label
  · subst hl
    rw [Function.update_self, Option.some.injEq, h.length, ← List.length_map (f := Block.label)]
    constructor
    · rintro rfl
      simp
    · intro hi
      by_contra hne
      obtain hlt | hlt := Nat.lt_or_gt_of_ne hne
      · rw [List.getElem?_eq_none (by simp at hlt ⊢; omega)] at hi
        cases hi
      · rw [List.getElem?_append_left hlt] at hi
        exact hb (List.mem_of_getElem? hi)
  · rw [Function.update_of_ne hl, h.iff]
    constructor
    · intro hi
      rw [List.getElem?_append_left (List.getElem?_eq_some_iff.mp hi).1]
      exact hi
    · intro hi
      by_cases hlt : i < (bs.map Block.label).length
      · rwa [List.getElem?_append_left hlt] at hi
      · rw [List.getElem?_append_right (Nat.not_lt.mp hlt)] at hi
        have := List.mem_of_getElem? hi
        exact absurd (List.mem_singleton.mp this) hl

/-- Classes of blocks that jumps lead to and from. -/
def Joined (p : Program) (i j : ℕ) : Prop :=
  i = j ∨ ∃ l l', (p.blocks.map Block.label)[i]? = some l ∧ (p.blocks.map Block.label)[j]? = some l' ∧
    Relation.EqvGen (Jump p) l l'

theorem joined_equivalence : Equivalence (Joined p) where
  refl _ := .inl rfl
  symm h := by
    obtain rfl | ⟨l, l', hl, hl', h⟩ := h
    · exact .inl rfl
    · exact .inr ⟨l', l, hl', hl, h.symm⟩
  trans h h' := by
    obtain rfl | ⟨l, m, hl, hm, h⟩ := h
    · exact h'
    · obtain rfl | ⟨m', l', hm', hl', h'⟩ := h'
      · exact .inr ⟨l, m, hl, hm, h⟩
      · obtain rfl := Option.some.inj (hm.symm.trans hm')
        exact .inr ⟨l, l', hl, hl', h.trans _ _ _ h'⟩

/-- **The initial partition**: the blocks `bs` have classes, the functions `fs` have those of their starts, the
jumps of the blocks `js` are within classes, and only jumps join. -/
structure Initial (p : Program) (bs : List Block) (fs : List Function) (js : List Block) (s : CoalesceState) :
    Prop where
  blocks : bs <+: p.blocks
  numbered : Numbered bs s.graph.sets.size s.labelClass
  sized : s.graph.Sized (bs.map blockSize)
  sound : ∀ i j, s.graph.sets.rootD i = s.graph.sets.rootD j → Joined p i j
  func : ∀ f ∈ fs, ∃ c, s.funcClass f.name = some c ∧ s.labelClass f.start = some c
  fresh : ∀ g c, s.funcClass g = some c → g ∈ fs.map Function.name
  jump : ∀ b ∈ js, ∀ l ∈ jumps b, ∃ c c', s.labelClass b.label = some c ∧ s.labelClass l = some c' ∧
    s.graph.sets.rootD c = s.graph.sets.rootD c'
  edges : s.graph.edges = []

theorem Initial.getElem? (h : Initial p bs fs js s) {l : Label} (hl : s.labelClass l = some i) :
    (p.blocks.map Block.label)[i]? = some l := by
  obtain ⟨t, ht⟩ := h.blocks
  have hi := (h.numbered.iff l i).mp hl
  rw [← ht, List.map_append, List.getElem?_append_left (List.getElem?_eq_some_iff.mp hi).1, hi]

theorem Initial.newLabelClass (hp : p.Scoped) (h : Initial p bs fs js s) {b : Block} (hb : bs ++ [b] <+: p.blocks) :
    ∃ s', newLabelClass s b = some s' ∧ Initial p (bs ++ [b]) fs js s' := by
  have hnd : ((bs ++ [b]).map Block.label).Nodup := hp.labels.sublist (hb.sublist.map _)
  have hnot : b.label ∉ bs.map Block.label := fun hmem => by
    rw [List.map_append, List.nodup_append] at hnd
    exact hnd.2.2 _ hmem _ (List.mem_singleton.mpr rfl) rfl
  obtain ⟨hset, hnum⟩ := h.numbered.setOnce hnot
  have hold : ∀ l c, s.labelClass l = some c →
      Function.update s.labelClass b.label (some s.graph.sets.size) l = some c := fun l c hl => by
    rw [Function.update_of_ne, hl]
    rintro rfl
    rw [h.numbered.eq_none hnot] at hl
    cases hl
  refine ⟨_, by simp only [Chunkify.newLabelClass, EquivalenceGraph.newClass, hset]; rfl, ?_⟩
  refine ⟨hb, ?_, ?_, ?_, fun f hf => ?_, h.fresh, fun b' hb' l hl => ?_, h.edges⟩
  · simpa using hnum
  · simpa [EquivalenceGraph.newClass] using h.sized.newClass (blockSize b)
  · simpa using h.sound
  · obtain ⟨c, hc, hstart⟩ := h.func f hf
    exact ⟨c, hc, hold _ _ hstart⟩
  · obtain ⟨c, c', hc, hc', hroot⟩ := h.jump b' hb' l hl
    exact ⟨c, c', hold _ _ hc, hold _ _ hc', by simpa using hroot⟩

/-- A union of the classes of a block and of a label it jumps to. -/
theorem Initial.union (h : Initial p bs fs js s) {l l' : Label} (hj : Jump p l l') {c c' : ℕ}
    (hc : s.labelClass l = some c) (hc' : s.labelClass l' = some c') :
    Initial p bs fs js { s with graph := s.graph.union c c' } := by
  refine ⟨h.blocks, by simpa using h.numbered, h.sized.union (h.numbered.lt hc) (h.numbered.lt hc'), ?_, h.func,
    h.fresh, fun b hb l hl => ?_, ?_⟩
  · exact fun i j hij => EquivalenceGraph.union_sound joined_equivalence h.sound
      (.inr ⟨l, l', h.getElem? hc, h.getElem? hc', .rel _ _ hj⟩) hij
  · obtain ⟨c₁, c₂, h₁, h₂, hroot⟩ := h.jump b hb l hl
    exact ⟨c₁, c₂, h₁, h₂, EquivalenceGraph.rootD_union_congr hroot⟩
  · unfold EquivalenceGraph.union
    split <;> exact h.edges

/-- Some jumps of a block are joined. -/
theorem Initial.foldlM_same (h : Initial p bs fs js s) {b : Block} (hb : b ∈ p.blocks) {c : ℕ}
    (hc : s.labelClass b.label = some c) (hbs : ∀ l ∈ jumps b, l ∈ bs.map Block.label) :
    ∃ s', (jumps b).foldlM (same c) s = some s' ∧ Initial p bs fs (js ++ [b]) s' := by
  obtain ⟨s', hs', hI, hlc, hdone⟩ := Fold.foldlM_prefix
    (I := fun ls s' => Initial p bs fs js s' ∧ s'.labelClass = s.labelClass ∧
      ∀ l ∈ ls, ∃ c', s.labelClass l = some c' ∧ s'.graph.sets.rootD c = s'.graph.sets.rootD c')
    (l := jumps b) (d := []) (a := s) (g := same c)
    (fun s' ls l hpre hI => by
      obtain ⟨hI, hlc, hdone⟩ := hI
      have hl : l ∈ jumps b := hpre.subset (by simp)
      obtain ⟨c', hc'⟩ := hI.numbered.exists (hbs l hl)
      refine ⟨{ s' with graph := s'.graph.union c c' }, by simp [same, hc'],
        hI.union ⟨b, hb, rfl, hl⟩ (hlc ▸ hc) hc', hlc, fun l' hl' => ?_⟩
      obtain hl' | hl' := List.mem_append.mp hl'
      · obtain ⟨c₂, hc₂, hroot⟩ := hdone l' hl'
        exact ⟨c₂, hc₂, EquivalenceGraph.rootD_union_congr hroot⟩
      · obtain rfl := List.mem_singleton.mp hl'
        refine ⟨c', hlc ▸ hc', EquivalenceGraph.rootD_union_self ?_ (hI.numbered.lt hc')⟩
        exact hI.numbered.lt (hlc ▸ hc))
    ⟨h, rfl, by simp⟩
  refine ⟨s', hs', { hI with jump := fun b' hb' l hl => ?_ }⟩
  obtain hb' | hb' := List.mem_append.mp hb'
  · exact hI.jump b' hb' l hl
  · obtain rfl := List.mem_singleton.mp hb'
    obtain ⟨c', hc', hroot⟩ := hdone l hl
    exact ⟨c, c', hlc ▸ hc, hlc ▸ hc', hroot⟩

/-- **One function of the initial partition.** -/
theorem Initial.partitionFunction (hp : p.Scoped) {f : Function} (hfs : fs ++ [f] <+: p.all)
    (h : Initial p (fs.flatMap Function.blocks) fs (fs.flatMap Function.blocks) s) :
    ∃ s', partitionFunction s f = some s' ∧
      Initial p ((fs ++ [f]).flatMap Function.blocks) (fs ++ [f]) ((fs ++ [f]).flatMap Function.blocks) s' := by
  have hf : f ∈ p.all := hfs.subset (by simp)
  have hblocks : fs.flatMap Function.blocks ++ f.blocks <+: p.blocks := by
    obtain ⟨t, ht⟩ := hfs
    exact ⟨t.flatMap Function.blocks, by simp [Program.blocks, ← ht]⟩
  have hmem : ∀ {l}, l ∈ f.blocks.map Block.label →
      l ∈ (fs.flatMap Function.blocks ++ f.blocks).map Block.label := fun hl => by
    rw [List.map_append]
    exact List.mem_append_right _ hl
  obtain ⟨s₁, h₁, hI₁⟩ := Fold.foldlM_prefix
    (I := fun bs s => Initial p (fs.flatMap Function.blocks ++ bs) fs (fs.flatMap Function.blocks) s)
    (l := f.blocks) (d := []) (a := s) (g := Chunkify.newLabelClass)
    (fun s bs b hpre hI => by
      rw [← List.append_assoc]
      refine hI.newLabelClass hp (List.IsPrefix.trans ?_ hblocks)
      rw [List.append_assoc]
      exact (List.prefix_append_right_inj _).mpr hpre)
    (by simpa using h)
  rw [List.nil_append] at hI₁
  obtain ⟨c, hc⟩ := hI₁.numbered.exists (hmem (start_mem hp hf))
  have hnone : s₁.funcClass f.name = none := by
    by_contra hne
    obtain ⟨c, hc⟩ := Option.ne_none_iff_exists'.mp hne
    have hnd : ((fs ++ [f]).map Function.name).Nodup := hp.names.sublist (hfs.sublist.map _)
    rw [List.map_append, List.nodup_append] at hnd
    exact hnd.2.2 _ (hI₁.fresh _ _ hc) _ (List.mem_singleton.mpr rfl) rfl
  have hI₂ : Initial p (fs.flatMap Function.blocks ++ f.blocks) (fs ++ [f]) (fs.flatMap Function.blocks)
      { s₁ with funcClass := Function.update s₁.funcClass f.name (some c) } := by
    refine ⟨hI₁.blocks, hI₁.numbered, hI₁.sized, hI₁.sound, fun g hg => ?_, fun g c' hg => ?_, hI₁.jump, hI₁.edges⟩
    · obtain hg | hg := List.mem_append.mp hg
      · obtain ⟨c', hc', hstart⟩ := hI₁.func g hg
        refine ⟨c', ?_, hstart⟩
        dsimp only
        rw [Function.update_of_ne, hc']
        intro heq
        rw [heq, hnone] at hc'
        cases hc'
      · obtain rfl := List.mem_singleton.mp hg
        exact ⟨c, Function.update_self .., hc⟩
    · rw [List.map_append, List.mem_append]
      by_cases hgf : g = f.name
      · exact .inr (by simp [hgf])
      · dsimp only at hg
        rw [Function.update_of_ne hgf] at hg
        exact .inl (hI₁.fresh g c' hg)
  obtain ⟨s₃, h₃, hI₃⟩ := Fold.foldlM_prefix
    (I := fun js s => Initial p (fs.flatMap Function.blocks ++ f.blocks) (fs ++ [f])
      (fs.flatMap Function.blocks ++ js) s)
    (l := f.blocks) (d := []) (g := joinJumps)
    (fun s js b hpre hI => by
      have hb : b ∈ f.blocks := hpre.subset (by simp)
      have hbp : b ∈ p.blocks := Program.mem_blocks.mpr ⟨f, hf, hb⟩
      obtain ⟨cb, hcb⟩ := hI.numbered.exists (hmem (List.mem_map_of_mem hb))
      obtain ⟨s', hs', hI'⟩ := hI.foldlM_same hbp hcb fun l hl => hmem (by
        obtain ⟨b', hb'⟩ := Option.isSome_iff_exists.mp (hp.resolved f hf l (List.mem_cons_of_mem _
          (List.mem_flatMap.mpr ⟨b, hb, List.mem_cons_of_mem _ (jumps_subset b hl)⟩)))
        rw [← Function.block?_label hb']
        exact List.mem_map_of_mem (Function.block?_mem hb'))
      exact ⟨s', by simp [joinJumps, hcb, hs'], by rwa [← List.append_assoc]⟩)
    (by simpa using hI₂)
  refine ⟨s₃, ?_, by simpa using hI₃⟩
  simp [Chunkify.partitionFunction, h₁, hc, Chunkify.setOnce, hnone, h₃]

/-- **The initial partition of a program.** -/
theorem exists_initial (hp : p.Scoped) :
    ∃ s, p.all.foldlM partitionFunction ⟨.new, fun _ => none, fun _ => none⟩ = some s ∧
      Initial p p.blocks p.all p.blocks s := by
  refine Fold.foldlM_prefix
    (I := fun fs s => Initial p (fs.flatMap Function.blocks) fs (fs.flatMap Function.blocks) s) (d := [])
    (fun s fs f hpre hI => hI.partitionFunction hp hpre) ?_
  refine ⟨List.nil_prefix, Numbered.nil, .new, fun i j hij => .inl ?_, by simp, by simp, by simp, rfl⟩
  simpa [EquivalenceGraph.new] using hij

/-! ## Edges, and the limit -/

/-- A state that differs in its edges only, all of which join classes. -/
structure Edged (s s' : CoalesceState) : Prop where
  sets : s'.graph.sets = s.graph.sets
  sizes : s'.graph.sizes = s.graph.sizes
  funcClass : s'.funcClass = s.funcClass
  labelClass : s'.labelClass = s.labelClass
  edges : ∀ e ∈ s'.graph.edges, e.1 < s.graph.sets.size ∧ e.2 < s.graph.sets.size

theorem Edged.addEdge {s' : CoalesceState} (h : Edged s s') {c c' : ℕ} (hc : c < s.graph.sets.size)
    (hc' : c' < s.graph.sets.size) : Edged s { s' with graph := s'.graph.addEdge c c' } := by
  refine ⟨h.sets, h.sizes, h.funcClass, h.labelClass, fun e he => ?_⟩
  obtain rfl | he := List.mem_cons.mp he
  · exact ⟨hc, hc'⟩
  · exact h.edges e he

theorem Edged.foldl {c : ℕ} (hc : c < s.graph.sets.size) : ∀ (rs : List ℕ) {s' : CoalesceState}, Edged s s' →
    (∀ c' ∈ rs, c' < s.graph.sets.size) →
      Edged s { s' with graph := rs.foldl (fun g c' => g.addEdge c c') s'.graph }
  | [], _, h, _ => h
  | c' :: rs, _, h, hrs => Edged.foldl hc rs (h.addEdge hc (hrs c' (List.mem_cons_self ..)))
      fun x hx => hrs x (List.mem_cons_of_mem _ hx)

/-- **The edges of a program.** -/
theorem Initial.exists_edged (hp : p.Scoped) (h : Initial p p.blocks p.all p.blocks s) {rflow : Rflow.Labels}
    (hr : ∀ v, ∀ l ∈ rflow.elements v, p.HasLabel l) :
    ∃ s', p.all.foldlM (addEdges rflow) s = some s' ∧ Edged s s' := by
  refine Fold.foldlM_inv (fun s₁ f hf hE => ?_) ⟨rfl, rfl, rfl, rfl, by simp [h.edges]⟩
  obtain ⟨rs, hrs⟩ := Fold.mapM_total (f := s₁.labelClass) (l := rflow.elements (.returnsTo f.name)) fun l hl => by
    rw [hE.labelClass]
    exact h.numbered.exists (hr _ l hl)
  have hlt : ∀ c' ∈ rs.reverse, c' < s.graph.sets.size := fun c' hc' => by
    obtain ⟨l, -, hl⟩ := Fold.exists_of_mem_mapM hrs (List.mem_reverse.mp hc')
    exact h.numbered.lt (hE.labelClass ▸ hl)
  obtain ⟨s₂, h₂, hE₂⟩ := Fold.foldlM_inv (I := Edged s) (l := f.blocks) (a := s₁)
    (g := addBlockEdges rs.reverse) (fun s₂ b hb hE₂ => by
      have hbp : b ∈ p.blocks := Program.mem_blocks.mpr ⟨f, hf, hb⟩
      obtain ⟨c, hc⟩ := h.numbered.exists (List.mem_map_of_mem (f := Block.label) hbp)
      unfold addBlockEdges
      cases htr : b.transfer with
      | call args g ret =>
        obtain ⟨g', hg', rfl⟩ := List.mem_map.mp (hp.calls b hbp _ _ _ htr)
        obtain ⟨c', hc', hstart⟩ := h.func g' hg'
        exact ⟨_, by simp [hE₂.labelClass, hE₂.funcClass, hc, hc'],
          hE₂.addEdge (h.numbered.lt hc) (h.numbered.lt hstart)⟩
      | ret args =>
        exact ⟨_, by simp [hE₂.labelClass, hc], hE₂.foldl (h.numbered.lt hc) rs.reverse hlt⟩
      | _ => exact ⟨s₂, rfl, hE₂⟩) hE
  exact ⟨s₂, by simp [addEdges, hrs, h₂], hE₂⟩

/-- The size of the block of a label. -/
def Program.sizeOf (p : Program) (l : Label) : ℕ :=
  match p.blocks.find? (·.label = l) with
  | some b => blockSize b
  | none => 0

/-- **Within the limit**: a chunk is one class of blocks that jumps lead to and from, or the sizes of its blocks
add up to the limit at most. -/
def Limited (p : Program) (limit : ℤ) (c : Chunk) : Prop :=
  (∀ l ∈ c.labels, ∀ l' ∈ c.labels, Relation.EqvGen (Jump p) l l') ∨
    (((c.labels.map (Program.sizeOf p)).sum : ℕ) : ℤ) ≤ limit

/-- The sizes of the blocks with a root are the weight of the root. -/
theorem sum_sizeOf (hp : p.Scoped) (h : Numbered p.blocks s.graph.sets.size s.labelClass) (r : ℕ) :
    (((p.blocks.map Block.label).reverse.filter fun l =>
        (s.labelClass l).map s.graph.sets.rootD = some r).map (Program.sizeOf p)).sum =
      EquivalenceGraph.weight s.graph.sets (p.blocks.map blockSize) r := by
  have hlabels : p.blocks.map Block.label =
      (List.range s.graph.sets.size).map fun i => (p.blocks.map Block.label).getD i ⟨0⟩ := by
    refine List.ext_getElem (by simp [h.length]) fun i hi _ => ?_
    simp [List.getElem?_eq_getElem (by simpa using hi : i < p.blocks.length)]
  have hat : ∀ i < s.graph.sets.size, ∃ b, p.blocks[i]? = some b ∧
      (p.blocks.map Block.label).getD i ⟨0⟩ = b.label ∧ s.labelClass b.label = some i ∧
        Program.sizeOf p b.label = blockSize b := fun i hi => by
    obtain ⟨b, hb⟩ : ∃ b, p.blocks[i]? = some b :=
      ⟨_, List.getElem?_eq_getElem (h.length ▸ hi)⟩
    refine ⟨b, hb, by simp [hb], (h.iff _ i).mpr (by simp [hb]), ?_⟩
    rw [Program.sizeOf, Fold.find?_key hp.labels b (List.mem_of_getElem? hb)]
  rw [List.filter_reverse, List.map_reverse, List.sum_reverse, hlabels, List.filter_map, List.map_map,
    EquivalenceGraph.weight]
  congr 1
  have hfilter : (List.range s.graph.sets.size).filter
      ((fun l => decide ((s.labelClass l).map s.graph.sets.rootD = some r)) ∘
        fun i => (p.blocks.map Block.label).getD i ⟨0⟩) =
      (List.range s.graph.sets.size).filter fun i => s.graph.sets.rootD i = r :=
    List.filter_congr fun i hi => by
      obtain ⟨b, -, hlabel, hclass, -⟩ := hat i (List.mem_range.mp hi)
      simp only [Function.comp, hlabel, hclass, Option.map_some, Option.some.injEq]
  rw [hfilter]
  refine List.map_congr_left fun i hi => ?_
  obtain ⟨b, hb, hlabel, -, hsize⟩ := hat i (List.mem_range.mp (List.mem_of_mem_filter hi))
  simp only [Function.comp, hlabel, hsize]
  simp [hb]

/-- **Coalescing makes a legal partition, and joins up to the limit.** -/
theorem coalesce_legal (hp : p.Scoped) (limit : ℤ) :
    ∃ r, coalesce p limit = some r ∧ Legal p r ∧ ∀ c ∈ r, Limited p limit c := by
  obtain ⟨s₁, h₁, hI⟩ := exists_initial hp
  obtain ⟨rflow, hrflow, hr⟩ := hp.exists_rflow
  obtain ⟨s₂, h₂, hE⟩ := hI.exists_edged hp hr
  have hsound : ∀ i j, s₂.graph.sets.rootD i = s₂.graph.sets.rootD j → Joined p i j := by
    rw [hE.sets]
    exact hI.sound
  have hsized : s₂.graph.Sized (p.blocks.map blockSize) :=
    ⟨by rw [hE.sets, hI.sized.length], by simpa only [hE.sets, hE.sizes] using hI.sized.sizes⟩
  have hcoarse : EquivalenceGraph.Coarsened (Joined p) limit (p.blocks.map blockSize) s₂.graph
      (coarsenTo limit s₂).graph := by
    unfold coarsenTo
    split
    · exact ⟨rfl, hsized, fun _ _ => id, fun n _ => .inl fun i j hi hj => hsound i j (hi.trans hj.symm)⟩
    · exact EquivalenceGraph.coarsen_bounded hsized (by simpa only [hE.sets] using hE.edges) hsound
  have hclass : (coarsenTo limit s₂).labelClass = s₁.labelClass ∧
      (coarsenTo limit s₂).funcClass = s₁.funcClass := by
    unfold coarsenTo
    split <;> exact ⟨hE.labelClass, hE.funcClass⟩
  have hnum : Numbered p.blocks (coarsenTo limit s₂).graph.sets.size (coarsenTo limit s₂).labelClass := by
    rw [hcoarse.size_eq, hE.sets, hclass.1]
    exact hI.numbered
  have hpart : Partitioned p (coarsenTo limit s₂).graph.sets.rootD (coarsenTo limit s₂).funcClass
      (coarsenTo limit s₂).labelClass := by
    refine ⟨fun l hl => hnum.exists hl, fun f hf => ?_, fun l l' hj => ?_⟩
    · rw [hclass.1, hclass.2]
      exact hI.func f hf
    · obtain ⟨b, hb, rfl, hl'⟩ := hj
      obtain ⟨c, c', hc, hc', hroot⟩ := hI.jump b hb l' hl'
      rw [hclass.1, hc, hc', Option.map_some, Option.map_some, hcoarse.rootD c c' (by rw [hE.sets, hroot])]
  obtain ⟨A, hA, hcollected⟩ := hpart.collect
  refine ⟨_, ?_, hpart.legal hp hcollected, fun c hc => ?_⟩
  · simp only [coalesce, h₁, hrflow, h₂, Option.bind_eq_bind, Option.bind_some]
    exact hA
  obtain ⟨kc, hkc, rfl⟩ := List.mem_map.mp hc
  have hlabels := hcollected.labels.eq kc hkc
  have hmem : ∀ l ∈ kc.2.labels, ∃ i, (coarsenTo limit s₂).labelClass l = some i ∧
      (coarsenTo limit s₂).graph.sets.rootD i = kc.1 := fun l hl => by
    rw [hlabels, List.mem_filter] at hl
    simpa using hl.2
  obtain hnil | ⟨l₀, hl₀⟩ : kc.2.labels = [] ∨ ∃ l₀, l₀ ∈ kc.2.labels := by
    cases kc.2.labels with
    | nil => exact .inl rfl
    | cons l _ => exact .inr ⟨l, List.mem_cons_self ..⟩
  · exact .inl (by simp [hnil])
  obtain ⟨i₀, hi₀, hroot₀⟩ := hmem l₀ hl₀
  have hlt : i₀ < s₂.graph.sets.size := hcoarse.size_eq ▸ hnum.lt hi₀
  refine (hcoarse.bounded i₀ hlt).imp (fun h l hl l' hl' => ?_) fun h => ?_
  · obtain ⟨i, hi, hroot⟩ := hmem l hl
    obtain ⟨j, hj, hroot'⟩ := hmem l' hl'
    have hgi := (hnum.iff l i).mp hi
    have hgj := (hnum.iff l' j).mp hj
    obtain rfl | ⟨m, m', hm, hm', hE⟩ := h i j (hroot.trans hroot₀.symm) (hroot'.trans hroot₀.symm)
    · obtain rfl := Option.some.inj (hgi.symm.trans hgj)
      exact .refl _
    · obtain rfl := Option.some.inj (hgi.symm.trans hm)
      obtain rfl := Option.some.inj (hgj.symm.trans hm')
      exact hE
  · rw [hcoarse.sized.size (hnum.lt hi₀), hroot₀] at h
    rw [hlabels, sum_sizeOf hp hnum]
    exact h

end MLton.Rssa.Chunkify
