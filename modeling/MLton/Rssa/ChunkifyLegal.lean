import MLton.Rssa.ChunkifyCoalesce

/-!
# Rssa/ChunkifyLegal — every strategy makes a legal partition

`simple` gives a class to every block and then only joins classes; the jumps are joined first, and so every later
pass leaves a legal partition (`Ready`).  A round of `loop` that changes something joins two classes, and so there
are no more rounds than classes.
-/

namespace MLton.Rssa.Chunkify

open Batteries (UnionFind)
open Batteries.UnionFind

variable {p : Program} {bs js : List Block} {fs : List Function} {s : SimpleState} {n i j c c' : ℕ}

namespace SimpleState

theorem labelClass_eq_some {l : Label} : s.labelClass l = some c ↔ ∃ info, s.labelInfo l = some info ∧ info.cls = c := by
  simp [labelClass]

/-! ## The properties -/

/-- The blocks `bs` and the functions `fs` have their properties, and no other ones have. -/
structure Named (bs : List Block) (fs : List Function) (s : SimpleState) : Prop where
  label : ∀ l ∈ bs.map Block.label, ∃ info, s.labelInfo l = some info ∧ info.cls < s.sets.size
  freshLabel : ∀ l info, s.labelInfo l = some info → l ∈ bs.map Block.label
  func : ∀ f ∈ fs, ∃ info, s.funcInfo f.name = some info ∧ info.function = f ∧ info.callSites = [] ∧
    s.labelClass f.start = some info.cls
  freshFunc : ∀ g info, s.funcInfo g = some info → g ∈ fs.map Function.name
  calls : ∀ g, s.calls g = []

theorem Named.newLabelInfo (h : Named bs fs s) (name : Func) {b : Block} (hb : b.label ∉ bs.map Block.label) :
    ∃ s', newLabelInfo name s b = some s' ∧ Named (bs ++ [b]) fs s' := by
  have hnone : s.labelInfo b.label = none := by
    by_contra hne
    obtain ⟨info, hinfo⟩ := Option.ne_none_iff_exists'.mp hne
    exact hb (h.freshLabel _ _ hinfo)
  have hne : ∀ {l info}, s.labelInfo l = some info → l ≠ b.label := fun hl heq => hb (heq ▸ h.freshLabel _ _ hl)
  refine ⟨_, by simp only [SimpleState.newLabelInfo, setOnce, hnone]; rfl, ?_⟩
  refine ⟨fun l hl => ?_, fun l info hl => ?_, fun f hf => ?_, h.freshFunc, h.calls⟩
  · rw [List.map_append, List.mem_append] at hl
    obtain hl | hl := hl
    · obtain ⟨info, hinfo, hlt⟩ := h.label l hl
      refine ⟨info, by simpa [Function.update_of_ne (hne hinfo)] using hinfo, ?_⟩
      simpa [DisjointSet.singleton] using Nat.lt_succ_of_lt hlt
    · obtain rfl : l = b.label := by simpa using hl
      exact ⟨_, Function.update_self .., by simp [DisjointSet.singleton]⟩
  · rw [List.map_append, List.mem_append]
    by_cases hlb : l = b.label
    · exact .inr (by simp [hlb])
    · exact .inl (h.freshLabel l info (by simpa [Function.update_of_ne hlb] using hl))
  · obtain ⟨info, hinfo, hfun, hcalls, hstart⟩ := h.func f hf
    refine ⟨info, hinfo, hfun, hcalls, ?_⟩
    obtain ⟨li, hli, hcls⟩ := labelClass_eq_some.mp hstart
    exact labelClass_eq_some.mpr ⟨li, by simpa [Function.update_of_ne (hne hli)] using hli, hcls⟩

theorem Named.newFuncInfo (hp : p.Scoped) {f : Function} (hfs : fs ++ [f] <+: p.all)
    (h : Named (fs.flatMap Function.blocks) fs s) :
    ∃ s', newFuncInfo s f = some s' ∧ Named ((fs ++ [f]).flatMap Function.blocks) (fs ++ [f]) s' := by
  have hblocks : fs.flatMap Function.blocks ++ f.blocks <+: p.blocks := by
    obtain ⟨t, ht⟩ := hfs
    exact ⟨t.flatMap Function.blocks, by simp [Program.blocks, ← ht]⟩
  obtain ⟨s₁, h₁, hN⟩ := Fold.foldlM_prefix
    (I := fun bs s => Named (fs.flatMap Function.blocks ++ bs) fs s) (l := f.blocks) (d := []) (a := s)
    (g := SimpleState.newLabelInfo f.name)
    (fun s bs b hpre hN => by
      rw [← List.append_assoc]
      refine hN.newLabelInfo f.name fun hmem => ?_
      have hpre' : fs.flatMap Function.blocks ++ bs ++ [b] <+: p.blocks := by
        refine List.IsPrefix.trans ?_ hblocks
        rw [List.append_assoc]
        exact (List.prefix_append_right_inj _).mpr hpre
      have hnd : ((fs.flatMap Function.blocks ++ bs ++ [b]).map Block.label).Nodup :=
        hp.labels.sublist (hpre'.sublist.map _)
      rw [List.map_append, List.nodup_append] at hnd
      exact hnd.2.2 _ hmem _ (List.mem_singleton.mpr rfl) rfl)
    (by simpa using h)
  rw [List.nil_append] at hN
  obtain ⟨info, hinfo, -⟩ := hN.label f.start (by
    rw [List.map_append]
    exact List.mem_append_right _ (start_mem hp (hfs.subset (by simp))))
  have hnone : s₁.funcInfo f.name = none := by
    by_contra hne
    obtain ⟨info, hinfo⟩ := Option.ne_none_iff_exists'.mp hne
    have hnd : ((fs ++ [f]).map Function.name).Nodup := hp.names.sublist (hfs.sublist.map _)
    rw [List.map_append, List.nodup_append] at hnd
    exact hnd.2.2 _ (hN.freshFunc _ _ hinfo) _ (List.mem_singleton.mpr rfl) rfl
  refine ⟨{ s₁ with funcInfo := Function.update s₁.funcInfo f.name (some ⟨[], info.cls, f⟩) }, ?_, ?_⟩
  · simp [SimpleState.newFuncInfo, h₁, labelClass, hinfo, setOnce, hnone]
  · refine ⟨by simpa using hN.label, by simpa using hN.freshLabel, fun g hg => ?_, fun g gi hg => ?_, hN.calls⟩
    · obtain hg | hg := List.mem_append.mp hg
      · obtain ⟨gi, hgi, hrest⟩ := hN.func g hg
        have hne : g.name ≠ f.name := fun heq => by
          rw [heq, hnone] at hgi
          cases hgi
        exact ⟨gi, by simpa [Function.update_of_ne hne] using hgi, hrest⟩
      · obtain rfl := List.mem_singleton.mp hg
        exact ⟨_, Function.update_self .., rfl, rfl, labelClass_eq_some.mpr ⟨info, hinfo, rfl⟩⟩
    · rw [List.map_append, List.mem_append]
      by_cases hgf : g = f.name
      · exact .inr (by simp [hgf])
      · exact .inl (hN.freshFunc g gi (by simpa [Function.update_of_ne hgf] using hg))

/-! ## What every pass keeps -/

/-- **Every block and every function has a class, and the jumps of the blocks `js` are within classes.** -/
structure Ready (p : Program) (js : List Block) (s : SimpleState) : Prop where
  label : ∀ l, p.HasLabel l → ∃ info, s.labelInfo l = some info ∧ info.cls < s.sets.size
  func : ∀ f ∈ p.all, ∃ info, s.funcInfo f.name = some info ∧ info.function = f ∧
    (∀ l ∈ info.callSites, p.HasLabel l) ∧ s.labelClass f.start = some info.cls
  calls : ∀ g, s.calls g ⊆ p.all.map Function.name
  jump : ∀ b ∈ js, ∀ l ∈ jumps b, (s.labelClass b.label).map s.sets.rootD = (s.labelClass l).map s.sets.rootD

theorem Ready.class (h : Ready p js s) {l : Label} (hl : p.HasLabel l) :
    ∃ c, s.labelClass l = some c ∧ c < s.sets.size := by
  obtain ⟨info, hinfo, hlt⟩ := h.label l hl
  exact ⟨info.cls, labelClass_eq_some.mpr ⟨info, hinfo, rfl⟩, hlt⟩

theorem Ready.union (h : Ready p js s) (c c' : ℕ) : Ready p js (s.union c c') := by
  refine ⟨by simpa [SimpleState.union] using h.label, h.func, h.calls, fun b hb l hl => ?_⟩
  have heq := h.jump b hb l hl
  simp only [SimpleState.union]
  change (s.labelClass b.label).map _ = (s.labelClass l).map _
  cases hc : s.labelClass b.label <;> cases hc' : s.labelClass l <;> rw [hc, hc'] at heq <;> simp at heq ⊢
  exact DisjointSet.rootD_union_congr heq

theorem Ready.foldl_union : ∀ (cs : List ℕ) {s : SimpleState}, Ready p js s → Ready p js (cs.foldl (SimpleState.union c) s)
  | [], _, h => h
  | c' :: cs, _, h => Ready.foldl_union cs (h.union c c')

theorem hasLabel_of_jump (hp : p.Scoped) {b : Block} (hb : b ∈ p.blocks) {l : Label} (hl : l ∈ jumps b) :
    p.HasLabel l := by
  obtain ⟨f, hf, -, hl'⟩ := exists_of_jump hp ⟨b, hb, rfl, hl⟩
  rw [Program.HasLabel, labels_eq]
  exact List.mem_flatMap.mpr ⟨f, hf, hl'⟩

theorem hasLabel_of_mem {b : Block} (hb : b ∈ p.blocks) : p.HasLabel b.label := List.mem_map_of_mem hb

/-- The jumps of a block are joined. -/
theorem Ready.joinJumps (hp : p.Scoped) (h : Ready p js s) {b : Block} (hb : b ∈ p.blocks) :
    ∃ s', s.joinJumps b = some s' ∧ Ready p (js ++ [b]) s' := by
  obtain ⟨c, hc, hlt⟩ := h.class (hasLabel_of_mem hb)
  obtain ⟨s', hs', hI, hlabel, hsize, hdone⟩ := Fold.foldlM_prefix
    (I := fun ls s' => Ready p js s' ∧ s'.labelInfo = s.labelInfo ∧ s'.sets.size = s.sets.size ∧
      ∀ l ∈ ls, (s'.labelClass b.label).map s'.sets.rootD = (s'.labelClass l).map s'.sets.rootD)
    (l := jumps b) (d := []) (a := s) (g := SimpleState.same c)
    (fun s' ls l hpre hI => by
      obtain ⟨hI, hlabel, hsize, hdone⟩ := hI
      have hclass : s'.labelClass = s.labelClass := by
        unfold labelClass
        rw [hlabel]
      obtain ⟨c', hc', hlt'⟩ := hI.class (l := l) (hasLabel_of_jump hp hb (hpre.subset (by simp)))
      refine ⟨s'.union c c', by simp [SimpleState.same, hc'], hI.union c c', hlabel,
        by simpa [SimpleState.union] using hsize, fun l' hl' => ?_⟩
      change (s'.labelClass b.label).map (DisjointSet.union s'.sets c c').rootD =
        (s'.labelClass l').map (DisjointSet.union s'.sets c c').rootD
      have hcb : s'.labelClass b.label = some c := by rw [hclass, hc]
      obtain hl' | hl' := List.mem_append.mp hl'
      · have heq := hdone l' hl'
        cases hc₂ : s'.labelClass l' with
        | none => simp [hc₂, hcb] at heq
        | some c₂ =>
          rw [hcb, hc₂] at heq
          rw [hcb]
          exact congrArg some (DisjointSet.rootD_union_congr (Option.some.inj heq))
      · obtain rfl := List.mem_singleton.mp hl'
        rw [hcb, hc']
        exact congrArg some (DisjointSet.rootD_union_self (hsize ▸ hlt) hlt'))
    ⟨h, rfl, rfl, by simp⟩
  refine ⟨s', by simp [SimpleState.joinJumps, hc, hs'], { hI with jump := fun b' hb' l hl => ?_ }⟩
  obtain hb' | hb' := List.mem_append.mp hb'
  · exact hI.jump b' hb' l hl
  · obtain rfl := List.mem_singleton.mp hb'
    exact hdone l hl

/-- The call graph grows by one block. -/
theorem Ready.addCall (hp : p.Scoped) (h : Ready p js s) (name : Func) {b : Block} (hb : b ∈ p.blocks) :
    ∃ s', s.addCall name b = some s' ∧ Ready p js s' := by
  unfold SimpleState.addCall
  cases htr : b.transfer with
  | call args func ret =>
    obtain ⟨f, hf, rfl⟩ := List.mem_map.mp (hp.calls b hb _ _ _ htr)
    obtain ⟨info, hinfo, hfun, hsites, hstart⟩ := h.func f hf
    refine ⟨{ s with
      funcInfo := Function.update s.funcInfo f.name (some { info with callSites := b.label :: info.callSites })
      calls := Function.update s.calls name (f.name :: s.calls name) }, by simp [hinfo], h.label, fun g hg => ?_,
      fun g => ?_, h.jump⟩
    · by_cases hgf : g = f
      · subst hgf
        refine ⟨_, Function.update_self .., hfun, fun l hl => ?_, hstart⟩
        obtain rfl | hl := List.mem_cons.mp hl
        · exact hasLabel_of_mem hb
        · exact hsites l hl
      · have hne : g.name ≠ f.name := fun heq => hgf (List.inj_on_of_nodup_map hp.names hg hf heq)
        obtain ⟨gi, hgi, hrest⟩ := h.func g hg
        exact ⟨gi, by simpa [Function.update_of_ne hne] using hgi, hrest⟩
    · by_cases hg : g = name
      · subst hg
        simpa using ⟨⟨f, hf, rfl⟩, h.calls g⟩
      · simpa [Function.update_of_ne hg] using h.calls g
  | _ => exact ⟨s, rfl, h⟩

/-! ## Strongly connected components -/

theorem Ready.mapM_labelInfo (h : Ready p js s) {ls : List Label} (hls : ∀ l ∈ ls, p.HasLabel l) :
    ∃ infos, ls.mapM s.labelInfo = some infos :=
  Fold.mapM_total fun l hl => (h.label l (hls l hl)).imp fun _ h => h.1

theorem Ready.eqRTo (h : Ready p js s) (sccR : Bool) {l : Label} (hl : p.HasLabel l) (rTo : List ℕ) :
    ∃ s', s.eqRTo sccR l rTo = some s' ∧ Ready p js s' := by
  obtain ⟨c, hc, -⟩ := h.class hl
  unfold SimpleState.eqRTo
  split
  · exact ⟨_, by simp only [hc, Option.bind_eq_bind, Option.bind_some]; rfl, h.foldl_union rTo⟩
  · exact ⟨s, rfl, h⟩

theorem Ready.joinBlock (hp : p.Scoped) (h : Ready p js s) (opts : SimpleOptions) (funcs : List Func)
    (returnsTo raisesTo : List ℕ) {b : Block} (hb : b ∈ p.blocks) :
    ∃ s', s.joinBlock opts funcs returnsTo raisesTo b = some s' ∧ Ready p js s' := by
  unfold SimpleState.joinBlock
  cases htr : b.transfer with
  | call args func ret =>
    dsimp only
    split
    · obtain ⟨f, hf, rfl⟩ := List.mem_map.mp (hp.calls b hb _ _ _ htr)
      obtain ⟨c, hc, -⟩ := h.class (hasLabel_of_mem hb)
      obtain ⟨info, hinfo, -⟩ := h.func f hf
      exact ⟨s.union c info.cls, by simp [hc, funcClass, hinfo], h.union c info.cls⟩
    · exact ⟨s, rfl, h⟩
  | raise args => exact h.eqRTo opts.sccR (hasLabel_of_mem hb) raisesTo
  | ret args => exact h.eqRTo opts.sccR (hasLabel_of_mem hb) returnsTo
  | _ => exact ⟨s, rfl, h⟩

theorem Ready.joinFunction (hp : p.Scoped) (h : Ready p js s) (opts : SimpleOptions) {rflow : Rflow.Labels}
    (hr : ∀ v, ∀ l ∈ rflow.elements v, p.HasLabel l) (funcs : List Func) {g : Func}
    (hg : g ∈ p.all.map Function.name) :
    ∃ s', s.joinFunction opts rflow funcs g = some s' ∧ Ready p js s' := by
  obtain ⟨f, hf, rfl⟩ := List.mem_map.mp hg
  obtain ⟨info, hinfo, rfl, -⟩ := h.func f hf
  obtain ⟨rs, hrs⟩ := h.mapM_labelInfo (hr (.returnsTo info.function.name))
  obtain ⟨ra, hra⟩ := h.mapM_labelInfo (hr (.raisesTo info.function.name))
  simp only [SimpleState.joinFunction, mkRTo, hinfo, hrs, hra, Option.bind_eq_bind, Option.bind_some, Option.pure_def]
  exact Fold.foldlM_inv (fun s b hb hs => hs.joinBlock hp opts funcs _ _ (Program.mem_blocks.mpr ⟨_, hf, hb⟩)) h

/-! ## Singleton classes of call and return sites -/

theorem Ready.oneClass (h : Ready p js s) (isMain : Func → Bool) {ls : List Label} (hls : ∀ l ∈ ls, p.HasLabel l) :
    ∃ r, s.oneClass isMain ls = some r ∧ ∀ c, r = some c → c < s.sets.size := by
  cases ls with
  | nil => exact ⟨none, rfl, by simp⟩
  | cons l ls =>
    obtain ⟨info, hinfo, hlt⟩ := h.label l (hls l (List.mem_cons_self ..))
    obtain ⟨same, hsame⟩ : ∃ same, (ls.allM fun l => do
        let info' ← s.labelInfo l
        return !isMain info'.func && DisjointSet.equals s.sets info.cls info'.cls) = some same := by
      have hls' : ∀ l ∈ ls, p.HasLabel l := fun l hl => hls l (List.mem_cons_of_mem _ hl)
      clear hls
      induction ls with
      | nil => exact ⟨true, rfl⟩
      | cons l' ls ih =>
        obtain ⟨info', hinfo', -⟩ := h.label l' (hls' l' (List.mem_cons_self ..))
        obtain ⟨same, hsame⟩ := ih fun l hl => hls' l (List.mem_cons_of_mem _ hl)
        simp only [List.allM, hinfo', Option.bind_eq_bind, Option.bind_some, Option.pure_def]
        split
        · exact ⟨same, hsame⟩
        · exact ⟨false, rfl⟩
    simp only [SimpleState.oneClass, hinfo, Option.bind_eq_bind, Option.bind_some, Option.pure_def] at hsame ⊢
    split
    · exact ⟨none, rfl, by simp⟩
    · rw [hsame]
      cases same
      · exact ⟨none, rfl, by simp⟩
      · exact ⟨some info.cls, rfl, by simpa using hlt⟩

/-- What a round of `loop` keeps, from a state with `n` classes: a change lowers their number. -/
structure Round (p : Program) (js : List Block) (n : ℕ) (st : SimpleState × Bool) : Prop where
  ready : Ready p js st.1
  le : DisjointSet.count st.1.sets ≤ n
  lt : st.2 = true → DisjointSet.count st.1.sets < n

theorem Round.join {st : SimpleState × Bool} (h : Round p js n st) (hc : c < st.1.sets.size)
    (hc' : c' < st.1.sets.size) : Round p js n (join c st c') := by
  unfold SimpleState.join
  split
  · exact h
  · rename_i hne
    have hlt := DisjointSet.count_union_lt hc hc' (by simpa using hne)
    exact ⟨h.ready.union c c', (hlt.trans_le h.le).le, fun _ => hlt.trans_le h.le⟩

theorem size_join {st : SimpleState × Bool} : (join c st c').1.sets.size = st.1.sets.size := by
  unfold join
  split
  · rfl
  · exact DisjointSet.size_union

theorem Round.doSingC (hp : p.Scoped) {st : SimpleState × Bool} (h : Round p js n st) (isMain : Func → Bool)
    {f : Function} (hf : f ∈ p.all) {info : FuncInfo} (hinfo : st.1.funcInfo f.name = some info) :
    ∃ st', doSingC isMain info st = some st' ∧ Round p js n st' := by
  obtain ⟨info', hinfo', -, hsites, hstart⟩ := h.ready.func f hf
  obtain rfl := Option.some.inj (hinfo'.symm.trans hinfo)
  obtain ⟨r, hr, hlt⟩ := h.ready.oneClass isMain hsites
  cases r with
  | none => exact ⟨st, by simp [SimpleState.doSingC, hr], h⟩
  | some c =>
    refine ⟨SimpleState.join c st info'.cls, by simp [SimpleState.doSingC, hr], h.join (hlt c rfl) ?_⟩
    obtain ⟨c', hc', hlt'⟩ := h.ready.class (hp.hasLabel hf (List.mem_cons_self ..))
    obtain rfl := Option.some.inj (hstart.symm.trans hc')
    exact hlt'

theorem Round.doSingR {st : SimpleState × Bool} (h : Round p js n st) (isMain : Func → Bool) {ls : List Label}
    (hls : ∀ l ∈ ls, p.HasLabel l) {f : Function} (hf : f ∈ p.all) :
    ∃ st', doSingR isMain ls f.blocks st = some st' ∧ Round p js n st' := by
  obtain ⟨r, hr, hlt⟩ := h.ready.oneClass isMain hls
  cases r with
  | none => exact ⟨st, by simp [SimpleState.doSingR, hr], h⟩
  | some c =>
    simp only [SimpleState.doSingR, hr, Option.bind_eq_bind, Option.bind_some]
    obtain ⟨st', hst', hR, -⟩ := Fold.foldlM_inv
      (I := fun st' : SimpleState × Bool => Round p js n st' ∧ st'.1.sets.size = st.1.sets.size)
      (l := f.blocks) (a := st) (g := joinExit c)
      (fun st' b hb hI => by
        obtain ⟨hR, hsize⟩ := hI
        obtain ⟨c', hc', hlt'⟩ := hR.ready.class (hasLabel_of_mem (Program.mem_blocks.mpr ⟨f, hf, hb⟩))
        have hjoin := hR.join (hsize ▸ hlt c rfl) hlt'
        unfold joinExit
        cases b.transfer with
        | raise args => exact ⟨SimpleState.join c st' c', by simp [hc'], hjoin, size_join.trans hsize⟩
        | ret args => exact ⟨SimpleState.join c st' c', by simp [hc'], hjoin, size_join.trans hsize⟩
        | _ => exact ⟨st', rfl, hR, hsize⟩)
      ⟨h, rfl⟩
    exact ⟨st', hst', hR⟩

theorem Round.visit (hp : p.Scoped) {st : SimpleState × Bool} (h : Round p js n st) (opts : SimpleOptions)
    (isMain : Func → Bool) {rflow : Rflow.Labels} (hr : ∀ v, ∀ l ∈ rflow.elements v, p.HasLabel l)
    {f : Function} (hf : f ∈ p.all) : ∃ st', visit opts isMain rflow st f = some st' ∧ Round p js n st' := by
  obtain ⟨info, hinfo, -⟩ := h.ready.func f hf
  have hsingR : ∀ st₁, Round p js n st₁ → ∃ st', (if opts.singR then
      SimpleState.doSingR isMain (rflow.elements (.returnsTo f.name) ++ rflow.elements (.raisesTo f.name)) f.blocks st₁
    else some st₁) = some st' ∧ Round p js n st' := by
    intro st₁ hR
    split
    · exact hR.doSingR isMain (fun l hl => (List.mem_append.mp hl).elim (hr _ l) (hr _ l)) hf
    · exact ⟨st₁, rfl, hR⟩
  simp only [SimpleState.visit, hinfo, Option.bind_eq_bind, Option.bind_some]
  split
  · obtain ⟨st₁, h₁, hR⟩ := h.doSingC hp isMain hf hinfo
    rw [h₁]
    exact hsingR st₁ hR
  · exact hsingR st h

/-- **The rounds end**, as each but the last leaves fewer classes. -/
theorem Ready.loop (hp : p.Scoped) (opts : SimpleOptions) (isMain : Func → Bool) {rflow : Rflow.Labels}
    (hr : ∀ v, ∀ l ∈ rflow.elements v, p.HasLabel l) : ∀ {k : ℕ} {s : SimpleState}, Ready p js s →
      DisjointSet.count s.sets < k → ∃ s', loop opts isMain rflow p.all k s = some s' ∧ Ready p js s'
  | k + 1, s, h, hk => by
    obtain ⟨⟨s₁, changed⟩, h₁, hR⟩ := Fold.foldlM_inv (I := Round p js (DisjointSet.count s.sets)) (l := p.all)
      (a := (s, false)) (g := SimpleState.visit opts isMain rflow)
      (fun st f hf hR => hR.visit hp opts isMain hr hf) ⟨h, le_rfl, by simp⟩
    simp only [SimpleState.loop, h₁, Option.bind_eq_bind, Option.bind_some]
    cases changed with
    | false => exact ⟨s₁, rfl, hR.ready⟩
    | true => exact Ready.loop hp opts isMain hr hR.ready ((hR.lt rfl).trans_le (Nat.lt_succ_iff.mp hk))

end SimpleState

open SimpleState

/-- **`simple` makes a legal partition.** -/
theorem simple_legal (hp : p.Scoped) (opts : SimpleOptions) : ∃ r, simple p opts = some r ∧ Legal p r := by
  obtain ⟨s₁, h₁, hN⟩ := Fold.foldlM_prefix
    (I := fun fs s => Named (fs.flatMap Function.blocks) fs s) (l := p.all) (d := [])
    (a := ⟨.empty, fun _ => none, fun _ => none, fun _ => []⟩) (g := newFuncInfo)
    (fun s fs f hpre hN => hN.newFuncInfo hp hpre)
    ⟨by simp, by simp, by simp, by simp, fun _ => rfl⟩
  rw [List.nil_append] at hN
  have hR₁ : Ready p [] s₁ := by
    refine ⟨fun l hl => hN.label l hl, fun f hf => ?_, by simp [hN.calls], by simp⟩
    obtain ⟨info, hinfo, hfun, hsites, hstart⟩ := hN.func f hf
    exact ⟨info, hinfo, hfun, by simp [hsites], hstart⟩
  obtain ⟨s₂, h₂, hR₂⟩ := Fold.foldlM_prefix
    (I := fun fs s => Ready p (fs.flatMap Function.blocks) s) (l := p.all) (d := []) (a := s₁)
    (g := fun s f => f.blocks.foldlM SimpleState.joinJumps s)
    (fun s fs f hpre hR => by
      obtain ⟨s', hs', hR'⟩ := Fold.foldlM_prefix
        (I := fun bs s => Ready p (fs.flatMap Function.blocks ++ bs) s) (l := f.blocks) (d := []) (a := s)
        (g := SimpleState.joinJumps)
        (fun s bs b hpreb hR => by
          rw [← List.append_assoc]
          exact hR.joinJumps hp (Program.mem_blocks.mpr ⟨f, hpre.subset (by simp), hpreb.subset (by simp)⟩))
        (by simpa using hR)
      exact ⟨s', hs', by simpa using hR'⟩)
    hR₁
  replace hR₂ : Ready p p.blocks s₂ := hR₂
  obtain ⟨s₃, h₃, hR₃⟩ := Fold.foldlM_inv (I := Ready p p.blocks) (l := p.all) (a := s₂)
    (g := fun s f => f.blocks.foldlM (addCall f.name) s)
    (fun s f hf hR => Fold.foldlM_inv
      (fun s b hb hR => hR.addCall hp f.name (Program.mem_blocks.mpr ⟨f, hf, hb⟩)) hR) hR₂
  obtain ⟨rflow, hrflow, hr⟩ := hp.exists_rflow
  have hclosed : (s₃.cgraph p).Closed := fun g _ g' hg' => List.mem_reverse.mpr (hR₃.calls g hg')
  obtain ⟨sccs, hsccs, -, hmem, -⟩ := DirectedGraph.stronglyConnectedComponents_spec hclosed
  obtain ⟨s₄, h₄, hR₄⟩ := Fold.foldlM_inv (I := Ready p p.blocks) (l := sccs) (a := s₃)
    (g := fun s funcs => funcs.foldlM (joinFunction opts rflow funcs) s)
    (fun s funcs hfuncs hR => Fold.foldlM_inv (fun s f hf hR => by
      refine hR.joinFunction hp opts hr funcs (List.mem_reverse.mp ?_)
      exact (hmem f).mp (List.mem_flatten.mpr ⟨funcs, hfuncs, hf⟩)) hR) hR₃
  obtain ⟨s₅, h₅, hR₅⟩ := hR₄.loop hp opts (fun f => decide (f ∈ mainFns p opts)) hr
    (Nat.lt_succ_of_le DisjointSet.count_le)
  have hpart : Partitioned p s₅.sets.rootD s₅.funcClass s₅.labelClass := by
    refine ⟨fun l hl => (hR₅.class hl).imp fun _ h => h.1, fun f hf => ?_, ?_⟩
    · obtain ⟨info, hinfo, -, -, hstart⟩ := hR₅.func f hf
      exact ⟨info.cls, by simp [funcClass, hinfo], hstart⟩
    · rintro _ l' ⟨b, hb, rfl, hl'⟩
      exact hR₅.jump b hb l' hl'
  obtain ⟨A, hA, hcollected⟩ := hpart.collect
  refine ⟨_, ?_, hpart.legal hp hcollected⟩
  simp only [simple, h₁, h₂, h₃, hrflow, hsccs, h₄, h₅, Option.bind_eq_bind, Option.bind_some]
  exact hA

/-- **Every strategy ends and makes a legal partition, and coalescing keeps to its limit.** -/
theorem chunkify_legal (p : Program) (hp : p.Scoped) (strategy : Strategy) :
    ∃ r, chunkify p strategy = some r ∧ Legal p r ∧
      ∀ limit, strategy = .coalesce limit → ∀ c ∈ r, Limited p limit c := by
  cases strategy with
  | coalesce limit =>
    obtain ⟨r, hr, hlegal, hlimit⟩ := coalesce_legal hp limit
    refine ⟨r, hr, hlegal, fun limit' heq => ?_⟩
    obtain rfl : limit = limit' := by simpa using heq
    exact hlimit
  | func => exact ⟨_, rfl, func_legal hp, by simp⟩
  | one => exact ⟨_, rfl, one_legal hp, by simp⟩
  | simple opts =>
    obtain ⟨r, hr, hlegal⟩ := simple_legal hp opts
    exact ⟨r, hr, hlegal, by simp⟩

/-- A main function that calls another one and goes on at its continuation. -/
def callOnce : Program where
  functions := [⟨[], [⟨[], .jump, ⟨2⟩, [], .goto [] ⟨3⟩⟩, ⟨[], .jump, ⟨3⟩, [], .ret []⟩], ⟨1⟩, none, some [], ⟨2⟩⟩]
  handlesSignals := false
  main := ⟨[], [⟨[], .jump, ⟨0⟩, [], .call [] ⟨1⟩ (.nonTail ⟨1⟩ .dead)⟩, ⟨[], .cont .dead, ⟨1⟩, [], .ret []⟩], ⟨0⟩, none,
    none, ⟨0⟩⟩

theorem chunkify_legal_callOnce : ∃ r, chunkify callOnce (.coalesce 3) = some r ∧ Legal callOnce r ∧
    ∀ limit, Strategy.coalesce 3 = .coalesce limit → ∀ c ∈ r, Limited callOnce limit c := by
  refine chunkify_legal callOnce ⟨by decide, by decide, ?_, ?_⟩ (.coalesce 3)
  · simp only [Program.all, callOnce, List.forall_mem_cons, InsertChecks.Resolved]
    decide
  · simp [Program.blocks, Program.all, callOnce]

end MLton.Rssa.Chunkify
