import MLton.Ssa.RegionEvents

/-!
# Ssa/RegionsKept — removing regions changes no allocation's region

`Keeps` says which places may leave a graph of sites: only pushes and pops, each push with all its
pops, and none that is open at a stack allocation or at a call that may stack-allocate.

* `keeps_transformFunction` — what `transformFunction` leaves in place is such a choice.  Its notion of
  the open regions at a block is the one of some path (`Inv`); in a well-nested function that is the one
  of every path, so the table of regions is characterised by the events on all paths.
* `Keeps.trans` — two choices in a row are one.
* `transform_regionsKept` — the whole pass, all its rounds included.
-/

namespace MLton.Ssa

namespace RemoveRegions

/-- **The places that are kept are enough**: what leaves is a push with all its pops, and no region
open at an allocation, or at the end of a block of `A`, leaves. -/
structure Keeps {τ : Type*} (G : SiteGraph τ) (A : Label → Prop) (keep : τ → Bool) : Prop where
  only : ∀ p l s x, G.IsPath p l → (s, x) ∈ G.sites l → keep x = false →
    s.isPush = true ∨ s.isPop = true
  pops : G.PopsKept keep
  alloc : ∀ p l pre s x post, G.IsPath p l → G.sites l = pre ++ (s, x) :: post →
    isStackAlloc s = true → ∀ u ∈ scan pre (openAt G.sites p), keep u = true
  call : ∀ p l, G.IsPath p l → A l → ∀ u ∈ openAt G.sites (p ++ [l]), keep u = true

section Keeps

variable {τ υ : Type*} {G : SiteGraph τ} {A : Label → Prop} {keep : τ → Bool}

/-- An allocation is kept. -/
theorem Keeps.keep_alloc (h : Keeps G A keep) {p : List Label} {l : Label} {s : Statement} {x : τ}
    (hp : G.IsPath p l) (hx : (s, x) ∈ G.sites l) (hs : isStackAlloc s = true) : keep x = true := by
  by_contra hk
  obtain ⟨hpush, hpop⟩ := not_isPush_of_isStackAlloc hs
  rcases h.only p l s x hp hx (by simpa using hk) with h | h
  · simp [hpush] at h
  · simp [hpop] at h

/-- **At an allocation the open regions are the ones of before.** -/
theorem Keeps.scan_alloc (h : Keeps G A keep) (hn : G.WellNested) {p : List Label} {l : Label}
    {pre post : List (Statement × τ)} {s : Statement} {x : τ} (hp : G.IsPath p l)
    (hl : G.sites l = pre ++ (s, x) :: post) (hs : isStackAlloc s = true) :
    scan (pre.filter fun t => keep t.2) (openAt (G.restrict keep).sites p)
      = scan pre (openAt G.sites p) := by
  rw [openAt_filter hn h.pops hp]
  refine (scan_filter hn h.pops hp pre [] ((s, x) :: post) (by simpa using hl)).trans ?_
  exact List.filter_eq_self.mpr (h.alloc p l pre s x post hp hl hs)

/-- **At a call of `A` the open regions are the ones of before.** -/
theorem Keeps.openAt_call (h : Keeps G A keep) (hn : G.WellNested) {p : List Label} {l : Label}
    (hp : G.IsPath p l) (hl : A l) :
    openAt (G.restrict keep).sites (p ++ [l]) = openAt G.sites (p ++ [l]) := by
  rw [openAt_snoc, openAt_filter hn h.pops hp, openAt_snoc]
  refine (scan_filter hn h.pops hp (G.sites l) [] [] (by simp)).trans ?_
  refine List.filter_eq_self.mpr fun u hu => h.call p l hp hl u ?_
  rwa [openAt_snoc]

/-- A choice made on renamed places, read back. -/
theorem Keeps.of_rename {ρ : τ → υ} {keep : υ → Bool} (h : Keeps (G.rename ρ) A keep) :
    Keeps G A (fun x => keep (ρ x)) where
  only p l s x hp hx hk := h.only p l s (ρ x) hp (List.mem_map_of_mem (f := Prod.map id ρ) hx) hk
  pops u x hux := h.pops _ _ (hux.rename ρ)
  alloc p l pre s x post hp hl hs u hu := by
    refine h.alloc p l (pre.map (Prod.map id ρ)) s (ρ x) (post.map (Prod.map id ρ)) hp ?_ hs (ρ u) ?_
    · change (G.sites l).map (Prod.map id ρ) = _
      simp [hl]
    · rw [openAt_map, scan_map]
      exact List.mem_map_of_mem hu
  call p l hp hl u hu := by
    refine h.call p l hp hl (ρ u) ?_
    rw [openAt_map]
    exact List.mem_map_of_mem hu

/-- Two choices in a row are one. -/
theorem Keeps.restrict (h : Keeps G A keep) (hn : G.WellNested) {keep' : τ → Bool}
    (h' : Keeps (G.restrict keep) A keep') : Keeps G A (fun x => keep x && keep' x) where
  only p l s x hp hx hk := by
    by_cases hkx : keep x = true
    · exact h'.only p l s x hp (List.mem_filter.mpr ⟨hx, hkx⟩) (by simpa [hkx] using hk)
    · exact h.only p l s x hp hx (by simpa using hkx)
  pops u x hux := by
    have hk := h.pops u x hux
    by_cases hkx : keep x = true
    · obtain ⟨p, l, pre, s, post, rest, hp, hl, hs, hscan⟩ := hux
      have hku : keep u = true := hk ▸ hkx
      have hpop : (G.restrict keep).Pops u x := by
        refine ⟨p, l, pre.filter (fun t => keep t.2), s, post.filter (fun t => keep t.2),
          rest.filter keep, hp, ?_, hs, ?_⟩
        · change (G.sites l).filter _ = _
          simp [hl, hkx]
        · rw [openAt_filter hn h.pops hp]
          refine (scan_filter hn h.pops hp pre [] ((s, x) :: post) (by simpa using hl)).trans ?_
          rw [scan_nil, hscan, List.filter_cons, if_pos hku]
      simp [hkx, hku, h'.pops u x hpop]
    · have hku : keep u = false := by simpa [hk] using hkx
      simp [hkx, hku]
  alloc p l pre s x post hp hl hs u hu := by
    have hkx := h.keep_alloc (x := x) hp (by rw [hl]; simp) hs
    have hku := h.alloc p l pre s x post hp hl hs u hu
    have hku' := h'.alloc p l (pre.filter fun t => keep t.2) s x (post.filter fun t => keep t.2) hp
      (by
        change (G.sites l).filter _ = _
        simp [hl, hkx]) hs u (by rwa [h.scan_alloc hn hp hl hs])
    simp [hku, hku']
  call p l hp hl u hu := by
    have hku := h.call p l hp hl u hu
    have hku' := h'.call p l hp hl u (by rwa [h.openAt_call hn hp hl])
    simp [hku, hku']

end Keeps

/-! ## The places of a function -/

/-- A place is the label of its block and the number of statements before it. -/
theorem sites_decomp {f : Function} {l : Label} {pre post : List (Statement × RegionId)}
    {s : Statement} {x : RegionId} (h : f.sites l = pre ++ (s, x) :: post) :
    x = (l, pre.length) := by
  unfold Function.sites at h
  cases hb : f.block? l with
  | none => simp [hb] at h
  | some b =>
    simp only [hb] at h
    have hget : (b.statements.zipIdx.map fun t => (t.1, (l, t.2)))[pre.length]? = some (s, x) := by
      rw [h]
      simp
    simp only [List.getElem?_map, List.getElem?_zipIdx, Option.map_map,
      Option.map_eq_some_iff] at hget
    obtain ⟨s', -, hs'⟩ := hget
    simpa using (congrArg Prod.snd hs').symm

/-- A place determines its statement. -/
theorem sites_unique {f : Function} {l l' : Label} {s s' : Statement} {x : RegionId}
    (h : (s, x) ∈ f.sites l) (h' : (s', x) ∈ f.sites l') : l = l' ∧ s = s' := by
  obtain ⟨pre, post, hl⟩ := List.append_of_mem h
  obtain ⟨pre', post', hl'⟩ := List.append_of_mem h'
  have hx := sites_decomp hl
  have hx' := sites_decomp hl'
  obtain ⟨rfl, hlen⟩ := Prod.mk.inj (hx.symm.trans hx')
  refine ⟨rfl, ?_⟩
  have := (List.append_inj (hl.symm.trans hl') hlen).2
  simpa using (List.cons_eq_cons.mp this).1

theorem nodup_sites (f : Function) (l : Label) : ((f.sites l).map Prod.snd).Nodup := by
  unfold Function.sites
  cases f.block? l with
  | none => simp
  | some b =>
    have h : ((b.statements.zipIdx.map fun t => (t.1, (l, t.2))).map Prod.snd)
        = (List.range b.statements.length).map fun i => (l, i) := by
      rw [List.range_eq_range', ← List.zipIdx_map_snd, List.map_map, List.map_map]
      rfl
    simp only [h]
    exact List.nodup_range.map fun i j hij => (Prod.mk.inj hij).2

/-- A pop closes one region only. -/
theorem pops_unique {f : Function} (hn : f.siteGraph.WellNested) {u u' x : RegionId}
    (h : f.siteGraph.Pops u x) (h' : f.siteGraph.Pops u' x) : u = u' := by
  obtain ⟨p, l, pre, s, post, rest, hp, hl, -, hscan⟩ := h
  obtain ⟨p', l', pre', s', post', rest', hp', hl', -, hscan'⟩ := h'
  obtain ⟨rfl, hlen⟩ := Prod.mk.inj ((sites_decomp hl).symm.trans (sites_decomp hl'))
  obtain ⟨rfl, -⟩ := List.append_inj (hl.symm.trans hl') hlen
  rw [hn.unique p p' l hp hp', hscan'] at hscan
  exact (List.cons_eq_cons.mp hscan).1.symm

/-- The names that are open are places of pushes. -/
theorem push_of_mem_scan {f : Function} {p : List Label} {l : Label}
    {pre post : List (Statement × RegionId)} {u : RegionId} (hl : f.sites l = pre ++ post)
    (hu : u ∈ scan pre (openAt f.sites p)) : ∃ m s, (s, u) ∈ f.sites m ∧ s.isPush = true := by
  rcases mem_scan hu with ⟨s, hs, hpush⟩ | hu
  · exact ⟨l, s, by rw [hl]; exact List.mem_append_left _ hs, hpush⟩
  · exact mem_openAt hu

/-! ## What the search finds -/

section Analyze

variable (callAllocates : Func → Bool) (f : Function)

/-- The event happens in one of the blocks `vis`, on some path. -/
def EventIn (vis : List Label) (e : Event) : Prop :=
  ∃ p l b, l ∈ vis ∧ f.siteGraph.IsPath p l ∧ f.block? l = some b ∧
    e ∈ blockEvents callAllocates b (f.sites l) (openAt f.sites p)

/-- The event happens on some path. -/
def EventOn (e : Event) : Prop :=
  ∃ p l b, f.siteGraph.IsPath p l ∧ f.block? l = some b ∧
    e ∈ blockEvents callAllocates b (f.sites l) (openAt f.sites p)

/-- The table of regions is the one of the events `E`. -/
structure Tabulates (rs : List RegionInfo) (E : Event → Prop) : Prop where
  has : ∀ u, Has rs u ↔ ∃ e, E e ∧ e.Finds u
  marked : ∀ u, Marked rs u ↔ ∃ e, E e ∧ e.Marks u
  popOf : ∀ u x, PopOf rs u x ↔ ∃ e, E e ∧ e.Closes u x
  nodup : (rs.map RegionInfo.pushLoc).Nodup

/-- **The invariant of the search**, with the blocks `vis` entered: every noted stack is the one of
some path, the successors of entered blocks are noted, and the table is the one of their events. -/
structure Inv (vis : List Label) (st : State) : Prop where
  depth : ∀ l stk, st.blockDepth l = some stk →
    ∃ p, f.siteGraph.IsPath p l ∧ openAt f.sites p = stk
  noted : ∀ u ∈ vis, ∀ l ∈ f.succs u, (st.blockDepth l).isSome
  table : Tabulates st.regions (EventIn callAllocates f vis)

variable {callAllocates f}

theorem noteDepth_foldl (exitDepth : List RegionId) : ∀ (ls : List Label) (st : State),
    (ls.foldl (noteDepth exitDepth) st).regions = st.regions ∧
      (∀ l stk, (ls.foldl (noteDepth exitDepth) st).blockDepth l = some stk →
        st.blockDepth l = some stk ∨ (l ∈ ls ∧ stk = exitDepth)) ∧
      (∀ l, (st.blockDepth l).isSome ∨ l ∈ ls →
        ((ls.foldl (noteDepth exitDepth) st).blockDepth l).isSome)
  | [], _ => by simp
  | m :: ls, st => by
    obtain ⟨h1, h2, h3⟩ := noteDepth_foldl exitDepth ls (noteDepth exitDepth st m)
    have hregions : (noteDepth exitDepth st m).regions = st.regions := by
      unfold noteDepth
      split
      · rfl
      · split <;> rfl
    have hdepth : ∀ l stk, (noteDepth exitDepth st m).blockDepth l = some stk →
        st.blockDepth l = some stk ∨ (l = m ∧ stk = exitDepth) := by
      intro l stk h
      by_cases hlm : l = m
      · subst hlm
        unfold noteDepth at h
        split at h
        · exact Or.inr ⟨rfl, by simpa [eq_comm] using h⟩
        · split at h
          · exact Or.inr ⟨rfl, by simpa [eq_comm] using h⟩
          · exact Or.inl h
      · refine Or.inl ?_
        unfold noteDepth at h
        split at h
        · simpa [Function.update_of_ne hlm] using h
        · split at h
          · simpa [Function.update_of_ne hlm] using h
          · exact h
    have hsome : ∀ l, (st.blockDepth l).isSome ∨ l = m →
        ((noteDepth exitDepth st m).blockDepth l).isSome := by
      intro l h
      by_cases hlm : l = m
      · subst hlm
        unfold noteDepth
        split
        · simp
        · rename_i hd
          split <;> simp [hd]
      · have hold := h.resolve_right hlm
        unfold noteDepth
        split
        · simpa [Function.update_of_ne hlm] using hold
        · split
          · simpa [Function.update_of_ne hlm] using hold
          · exact hold
    refine ⟨h1.trans hregions, fun l stk h => ?_, fun l h => h3 l ?_⟩
    · rcases h2 l stk h with h | ⟨hl, rfl⟩
      · exact (hdepth l stk h).imp id fun ⟨hl, hstk⟩ => ⟨by simp [hl], hstk⟩
      · exact Or.inr ⟨List.mem_cons_of_mem _ hl, rfl⟩
    · rcases h with h | h
      · exact Or.inl (hsome l (Or.inl h))
      · rcases List.mem_cons.mp h with h | h
        · exact Or.inl (hsome l (Or.inr h))
        · exact Or.inr h

/-- Entering one more block adds its events, on the path chosen. -/
theorem eventIn_cons (hn : f.siteGraph.WellNested) {vis : List Label} {p : List Label} {l : Label}
    {b : Block} (hp : f.siteGraph.IsPath p l) (hb : f.block? l = some b) (e : Event) :
    EventIn callAllocates f (l :: vis) e ↔ EventIn callAllocates f vis e ∨
      e ∈ blockEvents callAllocates b (f.sites l) (openAt f.sites p) := by
  constructor
  · rintro ⟨p', m, b', hm, hp', hb', he⟩
    rcases List.mem_cons.mp hm with rfl | hm
    · obtain rfl : b = b' := Option.some_inj.mp (hb.symm.trans hb')
      have hopen : openAt f.sites p' = openAt f.sites p := hn.unique p' p m hp' hp
      exact Or.inr (by rwa [hopen] at he)
    · exact Or.inl ⟨p', m, b', hm, hp', hb', he⟩
  · rintro (⟨p', m, b', hm, h⟩ | he)
    · exact ⟨p', m, b', List.mem_cons_of_mem _ hm, h⟩
    · exact ⟨p, l, b, List.mem_cons_self .., hp, hb, he⟩

/-- **Entering a block keeps the invariant.** -/
theorem Inv.enterBlock (hn : f.siteGraph.WellNested) {vis : List Label} {st : State} {l : Label}
    (h : Inv callAllocates f vis st) (hl : Dfs.Enterable f.succs f.start vis l) :
    Inv callAllocates f (l :: vis) (enterBlock callAllocates f st l) := by
  -- the stack the block is entered with is the one of some path
  obtain ⟨p, hp, hopen⟩ : ∃ p, f.siteGraph.IsPath p l ∧
      openAt f.sites p = (st.blockDepth l).getD [] := by
    cases hd : st.blockDepth l with
    | some stk => exact h.depth l stk hd
    | none =>
      rcases hl.2 with rfl | ⟨u, hu, hul⟩
      · exact ⟨[], .nil, rfl⟩
      · have := h.noted u hu l hul
        simp [hd] at this
  cases hb : f.block? l with
  | none =>
    have heq : RemoveRegions.enterBlock callAllocates f st l = st := by
      simp [RemoveRegions.enterBlock, hb]
    have hE : EventIn callAllocates f (l :: vis) = EventIn callAllocates f vis := by
      funext e
      refine propext ⟨fun ⟨p', m, b', hm, hp', hb', he⟩ => ?_, fun ⟨p', m, b', hm, h⟩ =>
        ⟨p', m, b', List.mem_cons_of_mem _ hm, h⟩⟩
      rcases List.mem_cons.mp hm with rfl | hm
      · simp [hb] at hb'
      · exact ⟨p', m, b', hm, hp', hb', he⟩
    rw [heq]
    refine ⟨h.depth, fun u hu m hm => ?_, hE ▸ h.table⟩
    rcases List.mem_cons.mp hu with rfl | hu
    · simp [Function.succs, hb] at hm
    · exact h.noted u hu m hm
  | some b =>
    obtain ⟨t1, t2, t3, t4⟩ := foldl_applyEvent
      (blockEvents callAllocates b (f.sites l) (openAt f.sites p)) st
    have hd := blockDepth_foldl_applyEvent
      (blockEvents callAllocates b (f.sites l) (openAt f.sites p)) st
    obtain ⟨n1, n2, n3⟩ := noteDepth_foldl (scan (f.sites l) (openAt f.sites p)) b.transfer.labels
      ((blockEvents callAllocates b (f.sites l) (openAt f.sites p)).foldl applyEvent st)
    have heq : RemoveRegions.enterBlock callAllocates f st l =
        b.transfer.labels.foldl (noteDepth (scan (f.sites l) (openAt f.sites p)))
          ((blockEvents callAllocates b (f.sites l) (openAt f.sites p)).foldl applyEvent st) := by
      simp only [RemoveRegions.enterBlock, hb, ← hopen, processBlock_eq callAllocates hb]
    have hE (e : Event) : EventIn callAllocates f (l :: vis) e ↔ _ := eventIn_cons hn hp hb e
    rw [heq]
    refine ⟨fun m stk hm => ?_, fun u hu m hm => n3 m ?_, ?_⟩
    · rcases n2 m stk hm with hold | ⟨hml, rfl⟩
      · exact h.depth m stk (hd ▸ hold)
      · refine ⟨p ++ [l], hp.snoc ?_, openAt_snoc ..⟩
        simpa [Function.siteGraph, Function.succs_of_block? hb] using hml
    · rcases List.mem_cons.mp hu with rfl | hu
      · exact Or.inr (by simpa [Function.succs_of_block? hb] using hm)
      · exact Or.inl (by rw [hd]; exact h.noted u hu m hm)
    · rw [n1]
      refine ⟨fun u => ?_, fun u => ?_, fun u x => ?_, t4 h.table.nodup⟩
      · simp only [t1, h.table.has, hE, or_and_right, exists_or]
      · simp only [t2, h.table.marked, hE, or_and_right, exists_or]
      · simp only [t3, h.table.popOf, hE, or_and_right, exists_or]

/-- **The search tabulates the events on all paths.** -/
theorem tabulates_analyze (hn : f.siteGraph.WellNested) :
    Tabulates (analyze callAllocates f).regions (EventOn callAllocates f) := by
  have hinv : Inv callAllocates f
      (Dfs.search f.succs (enterBlock callAllocates f) (fun st _ => st) (f.labels.length + 1)
        { regions := [], allocatesInCaller := false, blockDepth := fun _ => none } f.start).1
      (analyze callAllocates f) :=
    Dfs.search_inv
      ⟨by simp, by simp, by
        refine ⟨?_, ?_, ?_, by simp⟩ <;> simp [Has, Marked, PopOf, EventIn]⟩
      (fun _ _ _ h hl => h.enterBlock hn hl) fun _ _ _ h _ => h
  have hreach : ∀ p l, f.siteGraph.IsPath p l → l ∈
      (Dfs.search f.succs (enterBlock callAllocates f) (fun st _ => st) (f.labels.length + 1)
        { regions := [], allocatesInCaller := false, blockDepth := fun _ => none } f.start).1 :=
    fun p l hp => (Dfs.mem_search_iff (fun u _ => f.succs_subset_labels u) (Nat.lt_succ_self _)
      f.start_mem_labels).mpr (exists_path_iff.mp ⟨p, hp⟩)
  generalize (Dfs.search f.succs (enterBlock callAllocates f) (fun st _ => st) (f.labels.length + 1)
    { regions := [], allocatesInCaller := false, blockDepth := fun _ => none } f.start).1 = vis at hinv hreach
  have hE : ∀ e, EventIn callAllocates f vis e ↔ EventOn callAllocates f e := by
    intro e
    constructor
    · rintro ⟨p, l, b, _, h⟩
      exact ⟨p, l, b, h⟩
    · rintro ⟨p, l, b, h⟩
      exact ⟨p, l, b, hreach p l h.1, h⟩
  exact
    { has := fun u => by rw [hinv.table.has]; simp only [hE]
      marked := fun u => by rw [hinv.table.marked]; simp only [hE]
      popOf := fun u x => by rw [hinv.table.popOf]; simp only [hE]
      nodup := hinv.table.nodup }

/-! ## One round -/

/-- An event of a block is that of one of its sites, or the allocation of its call. -/
theorem mem_blockEvents {b : Block} {ts : List (Statement × RegionId)} {stk : List RegionId}
    {e : Event} : e ∈ blockEvents callAllocates b ts stk ↔
      (∃ pre t post, ts = pre ++ t :: post ∧ eventOf t (scan pre stk) = some e) ∨
        (transferAllocates callAllocates b.transfer = true ∧ e = .alloc (scan ts stk)) := by
  rw [blockEvents, List.mem_append, mem_events]
  refine or_congr Iff.rfl ?_
  split <;> simp_all

/-- The pops the table knows are the pops of the graph. -/
theorem closes_iff_pops {u x : RegionId} :
    (∃ e, EventOn callAllocates f e ∧ e.Closes u x) ↔ f.siteGraph.Pops u x := by
  constructor
  · rintro ⟨e, ⟨p, l, b, hp, hb, he⟩, hcl⟩
    cases e with
    | closed v y =>
      obtain ⟨rfl, rfl⟩ := hcl
      rcases mem_blockEvents.mp he with ⟨pre, t, post, hl, ht⟩ | ⟨-, hcontra⟩
      · unfold eventOf at ht
        split at ht
        · simp at ht
        split at ht
        · rename_i hpop
          obtain ⟨v, hv, hvu⟩ := Option.map_eq_some_iff.mp ht
          obtain ⟨rfl, rfl⟩ := Event.closed.inj hvu
          obtain ⟨rest, hrest⟩ : ∃ rest, scan pre (openAt f.sites p) = v :: rest := by
            cases hstk : scan pre (openAt f.sites p) <;> simp_all
          exact ⟨p, l, pre, t.1, post, rest, hp, hl, hpop, hrest⟩
        · split at ht <;> simp at ht
      · simp at hcontra
    | _ => exact hcl.elim
  · rintro ⟨p, l, pre, s, post, rest, hp, hl, hpop, hscan⟩
    obtain ⟨b, hb⟩ : ∃ b, f.block? l = some b := by
      cases hb : f.block? l with
      | none => simp [Function.siteGraph, Function.sites, hb] at hl
      | some b => exact ⟨b, rfl⟩
    refine ⟨.closed u x, ⟨p, l, b, hp, hb, mem_blockEvents.mpr (Or.inl ⟨pre, (s, x), post, hl, ?_⟩)⟩,
      rfl, rfl⟩
    have hpush : s.isPush = false := by
      by_contra h
      have := Statement.isPop_of_isPush (by simpa using h)
      simp [hpop] at this
    change scan pre (openAt f.sites p) = _ at hscan
    simp [eventOf, hpush, hpop, hscan]

/-- A region found is the place of a push. -/
theorem push_of_finds {e : Event} (he : EventOn callAllocates f e) {u : RegionId}
    (hu : e.Finds u) : ∃ m s, (s, u) ∈ f.sites m ∧ s.isPush = true := by
  obtain ⟨p, l, b, hp, hb, he⟩ := he
  rcases mem_blockEvents.mp he with ⟨pre, t, post, hl, ht⟩ | ⟨-, rfl⟩
  · unfold eventOf at ht
    split at ht
    · rename_i hpush
      obtain rfl := Option.some_inj.mp ht
      obtain rfl := hu
      exact ⟨l, t.1, by rw [hl]; simp, hpush⟩
    split at ht
    · obtain ⟨v, hv, rfl⟩ := Option.map_eq_some_iff.mp ht
      obtain rfl := hu
      exact push_of_mem_scan hl (List.mem_of_mem_head? hv)
    · split at ht
      · obtain rfl := Option.some_inj.mp ht
        exact push_of_mem_scan hl hu
      · simp at ht
  · exact push_of_mem_scan (List.append_nil (f.sites l)).symm hu

/-- A pop is not a push. -/
theorem not_push_of_pops {u x : RegionId} (h : f.siteGraph.Pops u x) {m : Label} {s : Statement}
    (hs : (s, x) ∈ f.sites m) : s.isPush = false := by
  obtain ⟨p, l, pre, s', post, rest, -, hl, hpop, -⟩ := h
  change f.sites l = _ at hl
  obtain ⟨-, rfl⟩ := sites_unique hs (by rw [hl]; simp : (s', x) ∈ f.sites l)
  by_contra hpush
  have := Statement.isPop_of_isPush (by simpa using hpush)
  simp [hpop] at this

/-- The blocks whose call may stack-allocate. -/
def CallBlock (callAllocates : Func → Bool) (f : Function) (l : Label) : Prop :=
  ∃ b, f.block? l = some b ∧ transferAllocates callAllocates b.transfer = true

/-- **What `transformFunction` leaves in place is enough.** -/
theorem keeps_transformFunction (hn : f.siteGraph.WellNested) :
    Keeps f.siteGraph (CallBlock callAllocates f)
      (fun x => x ∉ stmtsToRemove (analyze callAllocates f).regions) := by
  have htab : Tabulates (analyze callAllocates f).regions (EventOn callAllocates f) :=
    tabulates_analyze hn
  have hrem : ∀ x, x ∈ stmtsToRemove (analyze callAllocates f).regions ↔
      ∃ u, (∃ e, EventOn callAllocates f e ∧ e.Finds u) ∧
        ¬ (∃ e, EventOn callAllocates f e ∧ e.Marks u) ∧ (x = u ∨ f.siteGraph.Pops u x) := by
    intro x
    rw [mem_stmtsToRemove htab.nodup]
    simp only [htab.has, htab.marked, htab.popOf, closes_iff_pops]
  -- a push that leaves is itself an unmarked region
  have hpushRem : ∀ {u : RegionId} {m : Label} {s : Statement}, (s, u) ∈ f.sites m →
      s.isPush = true → u ∈ stmtsToRemove (analyze callAllocates f).regions →
      (∃ e, EventOn callAllocates f e ∧ e.Finds u) ∧
        ¬ ∃ e, EventOn callAllocates f e ∧ e.Marks u := by
    intro u m s hs hpush hu
    obtain ⟨v, hfind, hmark, rfl | hpop⟩ := (hrem u).mp hu
    · exact ⟨hfind, hmark⟩
    · simp [not_push_of_pops hpop hs] at hpush
  -- a region with an allocation stays
  have hmarked : ∀ {u : RegionId} {e : Event}, EventOn callAllocates f e → e.Marks u →
      u ∉ stmtsToRemove (analyze callAllocates f).regions := by
    intro u e he hm hu
    have hfind : e.Finds u := by
      cases e with
      | alloc stk => exact hm
      | _ => exact hm.elim
    obtain ⟨m, s, hs, hpush⟩ := push_of_finds he hfind
    exact (hpushRem hs hpush hu).2 ⟨e, he, hm⟩
  refine ⟨fun p l s x hp hx hk => ?_, fun u x hux => ?_, fun p l pre s x post hp hl hs u hu => ?_,
    fun p l hp hl u hu => ?_⟩
  · obtain ⟨u, ⟨e, he, hfind⟩, -, rfl | hpop⟩ := (hrem x).mp (by simpa using hk)
    · obtain ⟨m, s', hs', hpush⟩ := push_of_finds he hfind
      obtain ⟨-, rfl⟩ := sites_unique hx hs'
      exact Or.inl hpush
    · obtain ⟨p', l', pre, s', post, rest, -, hl', hpop', -⟩ := hpop
      change f.sites l' = _ at hl'
      obtain ⟨-, rfl⟩ := sites_unique hx (by rw [hl']; simp : (s', x) ∈ f.sites l')
      exact Or.inr hpop'
  · -- a pop leaves exactly when the one region it closes does
    obtain ⟨e, he, hcl⟩ : ∃ e, EventOn callAllocates f e ∧ e.Closes u x :=
      closes_iff_pops.mpr hux
    have hfind : e.Finds u := by
      cases e with
      | closed v y => exact hcl.1
      | _ => exact hcl.elim
    obtain ⟨m, s, hs, hpush⟩ := push_of_finds he hfind
    have hiff : x ∈ stmtsToRemove (analyze callAllocates f).regions ↔
        u ∈ stmtsToRemove (analyze callAllocates f).regions := by
      constructor
      · intro hx
        obtain ⟨v, hv, hmark, rfl | hpop⟩ := (hrem x).mp hx
        · obtain ⟨e', he', hfind'⟩ := hv
          obtain ⟨m', s', hs', hpush'⟩ := push_of_finds he' hfind'
          simp [not_push_of_pops hux hs'] at hpush'
        · obtain rfl := pops_unique hn hpop hux
          exact (hrem v).mpr ⟨v, hv, hmark, Or.inl rfl⟩
      · intro hu
        obtain ⟨hv, hmark⟩ := hpushRem hs hpush hu
        exact (hrem x).mpr ⟨u, hv, hmark, Or.inr hux⟩
    simp only [hiff]
  · obtain ⟨b, hb⟩ : ∃ b, f.block? l = some b := by
      cases hb : f.block? l with
      | none => simp [Function.siteGraph, Function.sites, hb] at hl
      | some b => exact ⟨b, rfl⟩
    obtain ⟨hpush, hpop⟩ := not_isPush_of_isStackAlloc hs
    have hev : EventOn callAllocates f (.alloc (scan pre (openAt f.sites p))) :=
      ⟨p, l, b, hp, hb, mem_blockEvents.mpr
        (Or.inl ⟨pre, (s, x), post, hl, by simp [eventOf, hpush, hpop, hs]⟩)⟩
    simpa using hmarked hev hu
  · obtain ⟨b, hb, hcall⟩ := hl
    have hev : EventOn callAllocates f (.alloc (openAt f.sites (p ++ [l]))) :=
      ⟨p, l, b, hp, hb, mem_blockEvents.mpr (Or.inr ⟨hcall, by rw [openAt_snoc]⟩)⟩
    simpa using hmarked hev hu

end Analyze

/-! ## One function, before and after -/

/-- A block without the statements that are not kept, which are named by their places. -/
def keepStatements (keep : RegionId → Bool) (b : Block) : Block :=
  { b with
    statements := (b.statements.zipIdx.filter fun t => keep (b.label, t.2)).map Prod.fst }

/-- A function without the statements that are not kept, up to the order of blocks no label names. -/
structure Keeping (keep : RegionId → Bool) (f f' : Function) : Prop where
  args : f'.args = f.args
  name : f'.name = f.name
  start : f'.start = f.start
  block : ∀ l, f'.block? l = (f.block? l).map (keepStatements keep)

/-- The index a kept place has among the kept places of its block. -/
def newPlace (f : Function) (keep : RegionId → Bool) (x : RegionId) : RegionId :=
  (x.1, (((f.sites x.1).filter fun t => keep t.2).map Prod.snd).idxOf x)

theorem fst_of_mem_sites {f : Function} {l : Label} {t : Statement × RegionId}
    (h : t ∈ f.sites l) : t.2.1 = l := by
  obtain ⟨pre, post, hl⟩ := List.append_of_mem h
  exact congrArg Prod.fst (sites_decomp hl)

/-- Numbering a list of named statements afresh. -/
theorem zipIdx_map_fst_eq {l : Label} {ts : List (Statement × RegionId)}
    (hts : (ts.map Prod.snd).Nodup) :
    ((ts.map Prod.fst).zipIdx.map fun t => (t.1, (l, t.2)))
      = ts.map fun t => (t.1, (l, (ts.map Prod.snd).idxOf t.2)) := by
  refine List.ext_getElem (by simp) fun i h1 h2 => ?_
  have hi : i < (ts.map Prod.snd).length := by simpa using h2
  have hidx := hts.idxOf_getElem i hi
  simp only [List.getElem_map] at hidx
  simp [hidx]

/-- **The graph of the new function is the old one without the places that left**, renumbered. -/
theorem Keeping.siteGraph {keep : RegionId → Bool} {f f' : Function} (h : Keeping keep f f') :
    f'.siteGraph = (f.siteGraph.restrict keep).rename (newPlace f keep) := by
  have hsucc : f'.succs = f.succs := by
    funext l
    simp only [Function.succs, h.block]
    cases f.block? l <;> rfl
  have hsites : f'.sites = fun l =>
      ((f.sites l).filter fun t => keep t.2).map (Prod.map id (newPlace f keep)) := by
    funext l
    have hnd : (((f.sites l).filter fun t => keep t.2).map Prod.snd).Nodup :=
      (nodup_sites f l).sublist (List.filter_sublist.map _)
    have hmap : ((f.sites l).filter fun t => keep t.2).map (Prod.map id (newPlace f keep))
        = ((f.sites l).filter fun t => keep t.2).map fun t =>
            (t.1, (l, (((f.sites l).filter fun t => keep t.2).map Prod.snd).idxOf t.2)) := by
      refine List.map_congr_left fun t ht => ?_
      have hl := fst_of_mem_sites (List.mem_of_mem_filter ht)
      simp [Prod.map, newPlace, hl]
    rw [hmap, ← zipIdx_map_fst_eq hnd]
    cases hb : f.block? l with
    | none => simp [Function.sites, h.block, hb]
    | some b =>
      simp only [Function.sites, h.block, hb, Option.map_some, keepStatements,
        Function.block?_label hb, List.filter_map, List.map_map, Function.comp_def]
  simp only [Function.siteGraph, SiteGraph.restrict, SiteGraph.rename, hsucc, hsites, h.start]

/-- Leaving statements out twice. -/
theorem Keeping.trans {keep keep' : RegionId → Bool} {f g h : Function} (hfg : Keeping keep f g)
    (hgh : Keeping keep' g h) :
    Keeping (fun x => keep x && keep' (newPlace f keep x)) f h where
  args := hgh.args.trans hfg.args
  name := hgh.name.trans hfg.name
  start := hgh.start.trans hfg.start
  block l := by
    rw [hgh.block, hfg.block]
    cases hb : f.block? l with
    | none => rfl
    | some b =>
      have hlabel := Function.block?_label hb
      have hg : g.block? l = some (keepStatements keep b) := by rw [hfg.block, hb]; rfl
      -- the statements of `h` are the kept ones of the sites of `g`, which are those of `f`, renamed
      have hstmts : ∀ (k : RegionId → Bool) (f : Function) (b : Block), f.block? l = some b →
          (keepStatements k b).statements = ((f.sites l).filter fun t => k t.2).map Prod.fst := by
        intro k f b hb
        simp [keepStatements, Function.sites, hb, Function.block?_label hb, List.filter_map,
          Function.comp_def]
      have hsites : g.sites l =
          ((f.sites l).filter fun t => keep t.2).map (Prod.map id (newPlace f keep)) :=
        congrFun (congrArg SiteGraph.sites hfg.siteGraph) l
      have heq : (keepStatements keep' (keepStatements keep b)).statements
          = (keepStatements (fun x => keep x && keep' (newPlace f keep x)) b).statements := by
        rw [hstmts keep' g _ hg, hstmts _ f b hb, hsites, List.filter_map, List.map_map,
          List.filter_filter]
        simp [Function.comp_def, Bool.and_comm]
      exact congrArg some (by
        rw [keepStatements] at heq
        exact congrArg (fun ss => { b with statements := ss }) heq)

/-- **Removing regions**: `f'` is `f` with some regions left out, and on every path each allocation,
and each call of a function that may stack-allocate, happens under the same open push-sites.  The
statements of `f'` have the places of `f`, renumbered, so that push-sites are compared by their places
in `f`. -/
structure RegionsKept (mayAlloc : Func → Prop) (f f' : Function) (keep : RegionId → Bool) : Prop where
  keeping : Keeping keep f f'
  graph : f'.siteGraph = (f.siteGraph.restrict keep).rename (newPlace f keep)
  nested : f'.siteGraph.WellNested
  only : ∀ p l s x, f.siteGraph.IsPath p l → (s, x) ∈ f.sites l → keep x = false →
    s.isPush = true ∨ s.isPop = true
  pops : ∀ u x, f.siteGraph.Pops u x → keep x = keep u
  alloc : ∀ p l pre s x post, f.siteGraph.IsPath p l → f.sites l = pre ++ (s, x) :: post →
    isStackAlloc s = true → keep x = true ∧
      scan (pre.filter fun t => keep t.2) (openAt (f.siteGraph.restrict keep).sites p)
        = scan pre (openAt f.sites p)
  call : ∀ p l b args g r, f.siteGraph.IsPath p l → f.block? l = some b →
    b.transfer = .call args g r → mayAlloc g →
      openAt (f.siteGraph.restrict keep).sites (p ++ [l]) = openAt f.sites (p ++ [l])

/-- The blocks that end in a call of a function that may stack-allocate. -/
def MayAllocBlock (mayAlloc : Func → Prop) (f : Function) (l : Label) : Prop :=
  ∃ b args g r, f.block? l = some b ∧ b.transfer = .call args g r ∧ mayAlloc g

/-- A choice of places that is enough makes the function one with its regions kept. -/
theorem RegionsKept.of_keeps {mayAlloc : Func → Prop} {f f' : Function} {keep : RegionId → Bool}
    (hn : f.siteGraph.WellNested) (hk : Keeping keep f f')
    (h : Keeps f.siteGraph (MayAllocBlock mayAlloc f) keep) : RegionsKept mayAlloc f f' keep where
  keeping := hk
  graph := hk.siteGraph
  nested := by
    rw [hk.siteGraph]
    exact (hn.restrict h.pops).rename _
  only := h.only
  pops := h.pops
  alloc p l pre s x post hp hl hs :=
    ⟨h.keep_alloc hp (by change _ ∈ f.sites l; rw [hl]; simp) hs, h.scan_alloc hn hp hl hs⟩
  call p l b args g r hp hb ht hg := h.openAt_call hn hp ⟨b, args, g, r, hb, ht, hg⟩

/-- The same, as a set of conditions on the places. -/
theorem RegionsKept.keeps {mayAlloc : Func → Prop} {f f' : Function} {keep : RegionId → Bool}
    (hn : f.siteGraph.WellNested) (h : RegionsKept mayAlloc f f' keep) :
    Keeps f.siteGraph (MayAllocBlock mayAlloc f) keep where
  only := h.only
  pops := h.pops
  alloc p l pre s x post hp hl hs u hu := by
    have heq := (h.alloc p l pre s x post hp hl hs).2
    rw [openAt_filter hn h.pops hp] at heq
    have hscan := scan_filter hn h.pops hp pre [] ((s, x) :: post) (by simpa using hl)
    exact List.filter_eq_self.mp (hscan.symm.trans heq) u hu
  call p l hp hl u hu := by
    obtain ⟨b, args, g, r, hb, ht, hg⟩ := hl
    have heq := h.call p l b args g r hp hb ht hg
    rw [openAt_snoc, openAt_filter hn h.pops hp] at heq
    have hscan := scan_filter hn h.pops hp (f.sites l) [] [] (by simp [Function.siteGraph])
    exact List.filter_eq_self.mp (hscan.symm.trans (heq.trans (openAt_snoc ..))) u
      (by rwa [openAt_snoc] at hu)

/-- **Two rounds are one.** -/
theorem RegionsKept.trans {mayAlloc : Func → Prop} {f g h : Function} {keep keep' : RegionId → Bool}
    (hn : f.siteGraph.WellNested) (hfg : RegionsKept mayAlloc f g keep)
    (hgh : RegionsKept mayAlloc g h keep') :
    RegionsKept mayAlloc f h (fun x => keep x && keep' (newPlace f keep x)) := by
  have hkeeps' := hgh.keeps hfg.nested
  have hblock : ∀ l, MayAllocBlock mayAlloc f l → MayAllocBlock mayAlloc g l := by
    rintro l ⟨b, args, c, r, hb, ht, hc⟩
    exact ⟨keepStatements keep b, args, c, r, by rw [hfg.keeping.block, hb]; rfl, ht, hc⟩
  rw [hfg.keeping.siteGraph] at hkeeps'
  have hk : Keeps (f.siteGraph.restrict keep) (MayAllocBlock mayAlloc f) _ :=
    { hkeeps'.of_rename with
      call := fun p l hp hl => hkeeps'.of_rename.call p l hp (hblock l hl) }
  exact .of_keeps hn (hfg.keeping.trans hgh.keeping) ((hfg.keeps hn).restrict hn hk)

/-- **One round.** -/
theorem regionsKept_transformFunction {callAllocates : Func → Bool} {mayAlloc : Func → Prop}
    (hsound : ∀ g, mayAlloc g → callAllocates g = true) {f : Function}
    (hn : f.siteGraph.WellNested) :
    RegionsKept mayAlloc f (transformFunction callAllocates f).1
      (fun x => x ∉ stmtsToRemove (analyze callAllocates f).regions) := by
  have hk : Keeps f.siteGraph (CallBlock callAllocates f) _ := keeps_transformFunction hn
  refine .of_keeps hn ⟨rfl, rfl, rfl, fun l => ?_⟩ { hk with call := fun p l hp hl => ?_ }
  · exact Function.block?_map
      (g := removeStatements (stmtsToRemove (analyze callAllocates f).regions)) rfl (fun _ => rfl) l
  · obtain ⟨b, args, g, r, hb, ht, hg⟩ := hl
    exact hk.call p l hp ⟨b, hb, by simpa [transferAllocates, ht] using hsound g hg⟩

/-! ## The whole program -/

/-- The function may allocate on the region stack, itself or through a callee. -/
inductive MayStackAlloc (p : Program) : Func → Prop where
  | direct {f : Function} {b : Block} {s : Statement} : f ∈ p.functions → b ∈ f.blocks →
      s ∈ b.statements → isStackAlloc s = true → MayStackAlloc p f.name
  | call {f : Function} {b : Block} {args : List Var} {g : Func} {r : Return} : f ∈ p.functions →
      b ∈ f.blocks → b.transfer = .call args g r → MayStackAlloc p g → MayStackAlloc p f.name

/-- The lattice elements of the functions a program mentions. -/
def elts (p : Program) : List Elt := (funcs p).map .alloc ++ (funcs p).map .inCaller

theorem elts_lt_fuel (p : Program) : (elts p).length < fuel p := by
  simp only [elts, fuel, List.length_append, List.length_map]
  omega

theorem name_mem_elts {p : Program} {f : Function} (hf : f ∈ p.functions) :
    Elt.alloc f.name ∈ elts p := by
  refine List.mem_append_left _ (List.mem_map_of_mem ?_)
  exact List.mem_flatMap.mpr ⟨f, hf, List.mem_cons_self ..⟩

section Discover

open TwoPointLattice

variable {p : Program}

/-- The first pass tracks what the calls of a function imply. -/
theorem callHandlers_spec {f : Function} (hf : f ∈ p.functions) (s : Store Elt)
    (hs : Good (elts p) s) :
    Good (elts p) (f.blocks.foldl (callHandlers (fuel p) f.name) s) ∧
      Extends s (f.blocks.foldl (callHandlers (fuel p) f.name) s) ∧
      ∀ b ∈ f.blocks, ∀ args g r, b.transfer = .call args g r →
        Tracked (f.blocks.foldl (callHandlers (fuel p) f.name) s) (.alloc g) (.alloc f.name) := by
  refine Fold.foldl_establish (I := Good (elts p)) (T := Extends)
    (φ := fun (b : Block) (s : Store Elt) => ∀ args g r, b.transfer = Transfer.call args g r →
      Tracked s (.alloc g) (.alloc f.name)) Extends.refl (fun _ _ _ => Extends.trans)
    (fun a a' b hT h args g r ht => hT.tracked _ _ (h args g r ht)) _ _ (fun s b _ hs => ?_) hs
  unfold callHandlers
  cases ht : b.transfer with
  | call args g r =>
    obtain ⟨g1, e1, t1⟩ := hs.addHandler (elts_lt_fuel p) (e := .alloc g) (name_mem_elts hf)
    obtain ⟨g2, e2, -⟩ := g1.addHandler (elts_lt_fuel p) (e := .inCaller g) (name_mem_elts hf)
    refine ⟨g2, e1.trans e2, fun args' g' r' heq => ?_⟩
    obtain ⟨-, rfl, -⟩ := Transfer.call.inj heq
    exact e2.tracked _ _ t1
  | _ => exact ⟨hs, Extends.refl s, fun _ _ _ h => by simp at h⟩

/-- The second pass raises a function with an allocation of its own. -/
theorem directAlloc_spec {f : Function} (hf : f ∈ p.functions) (s : Store Elt)
    (hs : Good (elts p) s) :
    Good (elts p)
        (f.blocks.foldl (fun s b => b.statements.foldl (directAlloc (fuel p) f.name) s) s) ∧
      Extends s
        (f.blocks.foldl (fun s b => b.statements.foldl (directAlloc (fuel p) f.name) s) s) ∧
      ∀ b ∈ f.blocks, ∀ st ∈ b.statements, isStackAlloc st = true → Elt.alloc f.name ∈
        (f.blocks.foldl (fun s b => b.statements.foldl (directAlloc (fuel p) f.name) s) s).tops := by
  have hstmt : ∀ (st : Statement) (s : Store Elt), Good (elts p) s →
      Good (elts p) (directAlloc (fuel p) f.name s st) ∧
        Extends s (directAlloc (fuel p) f.name s st) ∧
        (isStackAlloc st = true → Elt.alloc f.name ∈ (directAlloc (fuel p) f.name s st).tops) := by
    intro st s hs
    obtain ⟨h1, h2, h3⟩ := hs.makeTop (elts_lt_fuel p) (name_mem_elts hf)
    unfold directAlloc
    split
    · exact ⟨h1, h2, fun _ => h3⟩
    · exact ⟨h1, h2, fun _ => h3⟩
    · exact ⟨h1, h2, fun _ => h3⟩
    · rename_i hprim hcon htup
      refine ⟨hs, Extends.refl s, fun hst => ?_⟩
      unfold isStackAlloc at hst
      cases hexp : st.exp with
      | primApp prim targs mode args => cases prim <;> cases mode <;> simp_all [allocMode, isStackMode]
      | conApp con args mode => simp_all [allocMode, isStackMode]
      | tuple exps mode => simp_all [allocMode, isStackMode]
      | _ => simp [hexp, allocMode] at hst
  refine Fold.foldl_establish (I := Good (elts p)) (T := Extends)
    (φ := fun (b : Block) (s : Store Elt) => ∀ st ∈ b.statements, isStackAlloc st = true →
      Elt.alloc f.name ∈ s.tops)
    Extends.refl (fun _ _ _ => Extends.trans)
    (fun a a' b hT h st hst hal => hT.tops (h st hst hal)) _ _ (fun s b _ hs => ?_) hs
  exact Fold.foldl_establish (I := Good (elts p)) (T := Extends)
    (φ := fun (st : Statement) (s : Store Elt) => isStackAlloc st = true →
      Elt.alloc f.name ∈ s.tops)
    Extends.refl (fun _ _ _ => Extends.trans) (fun a a' b hT h hal => hT.tops (h hal)) _ _
    (fun s st _ hs => hstmt st s hs) hs

/-- **The first two passes find every function that may stack-allocate.** -/
theorem mem_discover {g : Func} (h : MayStackAlloc p g) : Elt.alloc g ∈ (discover p).tops := by
  obtain ⟨g1, -, t1⟩ := Fold.foldl_establish (I := Good (elts p)) (T := Extends)
    (φ := fun (f : Function) (s : Store Elt) => ∀ b ∈ f.blocks, ∀ args g r,
      b.transfer = Transfer.call args g r → Tracked s (.alloc g) (.alloc f.name)) Extends.refl (fun _ _ _ => Extends.trans)
    (fun a a' f hT h b hb args g r ht => hT.tracked _ _ (h b hb args g r ht)) p.functions
    { tops := [], handlers := fun _ => [] } (fun s f hf hs => callHandlers_spec hf s hs)
    ⟨fun _ => List.nil_subset _, fun _ h => by simp at h⟩
  obtain ⟨g2, e2, t2⟩ := Fold.foldl_establish (I := Good (elts p)) (T := Extends)
    (φ := fun (f : Function) (s : Store Elt) => ∀ b ∈ f.blocks, ∀ st ∈ b.statements,
      isStackAlloc st = true → Elt.alloc f.name ∈ s.tops) Extends.refl (fun _ _ _ => Extends.trans)
    (fun a a' f hT h b hb st hst hal => hT.tops (h b hb st hst hal)) p.functions _
    (fun s f hf hs => directAlloc_spec hf s hs) g1
  induction h with
  | direct hf hb hst hal => exact t2 _ hf _ hb _ hst hal
  | call hf hb ht _ ih => exact g2.mem_tops (e2.tracked _ _ (t1 _ hf _ hb _ _ _ ht)) ih

end Discover

/-- A round's news only raise elements. -/
theorem tops_noteInCaller (n : ℕ) (rs : List (Function × Function × Bool))
    (acc : TwoPointLattice.Store Elt × Bool) :
    acc.1.tops ⊆ (rs.foldl (noteInCaller n) acc).1.tops := by
  refine (Fold.foldl_inv (I := fun _ => True) (T := fun a b => a.1.tops ⊆ b.1.tops)
    (fun _ => List.Subset.refl _) (fun _ _ _ h h' => List.Subset.trans h h') rs acc
    (fun a r _ _ => ⟨trivial, ?_⟩) trivial).2
  unfold noteInCaller
  split
  · exact (TwoPointLattice.extends_makeTop n a.1 _).tops
  · exact List.Subset.refl _

/-- What the pass does to one function. -/
def Kept (p : Program) (f f' : Function) : Prop :=
  f.siteGraph.WellNested → ∃ keep, RegionsKept (MayStackAlloc p) f f' keep

/-- **All rounds together.** -/
theorem iterateUntilFixed_kept (p : Program) (n : ℕ) (fs : List Function) :
    ∀ (k : ℕ) (s : TwoPointLattice.Store Elt) (gs : List Function),
      (∀ g, MayStackAlloc p g → Elt.alloc g ∈ s.tops) → List.Forall₂ (Kept p) fs gs →
      List.Forall₂ (Kept p) fs (iterateUntilFixed n k s gs)
  | 0, _, _, _, h => h
  | k + 1, s, gs, hs, h => by
    have hsound : ∀ g, MayStackAlloc p g → callAllocates s g = true := fun g hg => by
      simp [callAllocates, TwoPointLattice.isTop, hs g hg]
    have hround : List.Forall₂ (Kept p) fs
        ((gs.map (transformFunction (callAllocates s))).map Prod.fst) := by
      rw [List.map_map, List.forall₂_map_right_iff]
      refine h.imp fun f g hfg hn => ?_
      obtain ⟨keep, hkeep⟩ := hfg hn
      exact ⟨_, hkeep.trans hn (regionsKept_transformFunction hsound hkeep.nested)⟩
    rw [iterateUntilFixed]
    simp only
    split
    · exact iterateUntilFixed_kept p n fs k _ _
        (fun g hg => tops_noteInCaller n _ (s, false) (hs g hg)) hround
    · exact hround

/-- Leaving everything in place. -/
theorem kept_refl (p : Program) (f : Function) : Kept p f f := fun hn => by
  refine ⟨fun _ => true, .of_keeps hn ⟨rfl, rfl, rfl, fun l => ?_⟩ ⟨?_, ?_, ?_, ?_⟩⟩
  · cases f.block? l with
    | none => rfl
    | some b => simp [keepStatements]
  all_goals simp [SiteGraph.PopsKept]

/-- **`RemoveRegions` is sound**: each function whose regions are well nested comes out with its
regions well nested, some of them gone with all their pops, and every stack allocation and every call
that may stack-allocate under the same open push-sites, on every path. -/
theorem transform_regionsKept (p : Program) :
    List.Forall₂ (fun f f' => f.siteGraph.WellNested →
        ∃ keep, RegionsKept (MayStackAlloc p) f f' keep)
      p.functions (transform p).functions :=
  iterateUntilFixed_kept p _ _ _ _ _ (fun _ => mem_discover)
    (List.forall₂_same.mpr fun f _ => kept_refl p f)

end RemoveRegions

end MLton.Ssa
