import MLton.Ssa.OpenRegions
import MLton.Ssa.RemoveRegions

/-!
# Ssa/RegionEvents — what the search of `RemoveRegions` does to its table of regions

`processBlock` only ever acts through the *events* of its statements: a region is opened, one is
closed, or there is an allocation under a stack of open regions.  `foldl_applyEvent` reads the table
off the events alone, their order forgotten, and `mem_stmtsToRemove` reads the removed statements off
the table.
-/

namespace MLton.Ssa

namespace RemoveRegions

/-- The statement allocates on the region stack. -/
def isStackAlloc (s : Statement) : Bool :=
  match allocMode s.exp with
  | some m => isStackMode m
  | none => false

theorem not_isPush_of_isStackAlloc {s : Statement} (h : isStackAlloc s = true) :
    s.isPush = false ∧ s.isPop = false := by
  unfold isStackAlloc at h
  unfold Statement.isPush Statement.isPop
  cases hs : s.exp with
  | primApp prim targs mode args => cases prim <;> simp_all [allocMode]
  | _ => simp

/-! ## The events of a block -/

/-- What a statement, or a call, means to the analysis. -/
inductive Event where
  | opened (u : RegionId)
  | closed (u x : RegionId)
  | alloc (stk : List RegionId)

/-- The event of one site under a stack of open regions. -/
def eventOf (t : Statement × RegionId) (stk : List RegionId) : Option Event :=
  if t.1.isPush then some (.opened t.2)
  else if t.1.isPop then stk.head?.map fun u => .closed u t.2
  else if isStackAlloc t.1 then some (.alloc stk)
  else none

/-- The assignments an event makes. -/
def applyEvent (st : State) : Event → State
  | .opened u => { st with regions := getOrCreateRegion st.regions u }
  | .closed u x => { st with regions := pushPopLoc st.regions u x }
  | .alloc stk => markRegionsAllocate st stk

/-- The events of the sites of a block, in order. -/
def events : List (Statement × RegionId) → List RegionId → List Event
  | [], _ => []
  | t :: ts, stk => (eventOf t stk).toList ++ events ts (stepOpen stk t)

theorem processStatement_eq (x : RegionId) (s : Statement) (st : State) (stk : List RegionId) :
    processStatement x s.exp st stk
      = ((eventOf (s, x) stk).toList.foldl applyEvent st, stepOpen stk (s, x)) := by
  unfold processStatement eventOf stepOpen isStackAlloc Statement.isPush Statement.isPop
  cases hs : s.exp with
  | primApp prim targs mode args =>
    cases prim with
    | regionPush => simp [applyEvent]
    | regionPop => cases stk <;> simp [applyEvent]
    | _ => cases mode <;> simp [allocMode]; split <;> simp_all [applyEvent]
  | conApp con args mode => simp [allocMode]; split <;> simp_all [applyEvent]
  | tuple exps mode => simp [allocMode]; split <;> simp_all [applyEvent]
  | _ => simp [allocMode]

theorem processStatements_eq (label : Label) : ∀ (ss : List Statement) (i : ℕ) (st : State)
    (stk : List RegionId), processStatements label i ss st stk =
      ((events ((ss.zipIdx i).map fun t => (t.1, (label, t.2))) stk).foldl applyEvent st,
        scan ((ss.zipIdx i).map fun t => (t.1, (label, t.2))) stk)
  | [], _, _, _ => rfl
  | s :: ss, i, st, stk => by
    simp only [processStatements, processStatement_eq, List.zipIdx_cons, List.map_cons, events,
      List.foldl_append, scan_cons]
    exact processStatements_eq label ss (i + 1) _ _

theorem mem_events {e : Event} : ∀ {ts : List (Statement × RegionId)} {stk : List RegionId},
    e ∈ events ts stk ↔
      ∃ pre t post, ts = pre ++ t :: post ∧ eventOf t (scan pre stk) = some e
  | [], _ => by simp [events]
  | t :: ts, stk => by
    rw [events, List.mem_append, mem_events, Option.mem_toList]
    constructor
    · rintro (h | ⟨pre, t', post, rfl, h⟩)
      · exact ⟨[], t, ts, rfl, h⟩
      · exact ⟨t :: pre, t', post, rfl, h⟩
    · rintro ⟨pre, t', post, hts, h⟩
      rcases List.cons_eq_append_iff.mp hts with ⟨rfl, hcons⟩ | ⟨pre', rfl, hts'⟩
      · obtain ⟨rfl, rfl⟩ := List.cons_eq_cons.mp hcons
        exact Or.inl h
      · exact Or.inr ⟨pre', t', post, hts', h⟩

section Analyze

variable (callAllocates : Func → Bool)

/-- The transfer is a call that may stack-allocate. -/
def transferAllocates : Transfer → Bool
  | .call _ func _ => callAllocates func
  | _ => false

/-- The events of a block: those of its sites, and the allocation of its call. -/
def blockEvents (b : Block) (ts : List (Statement × RegionId)) (stk : List RegionId) : List Event :=
  events ts stk ++ if transferAllocates callAllocates b.transfer then [.alloc (scan ts stk)] else []

theorem processBlock_eq {f : Function} {l : Label} {b : Block} (hb : f.block? l = some b) (st : State)
    (stk : List RegionId) :
    processBlock callAllocates b st stk =
      ((blockEvents callAllocates b (f.sites l) stk).foldl applyEvent st, scan (f.sites l) stk) := by
  have hsites : f.sites l = b.statements.zipIdx.map fun t => (t.1, (b.label, t.2)) := by
    simp [Function.sites, hb, Function.block?_label hb]
  rw [hsites, processBlock, processStatements_eq, blockEvents, List.foldl_append]
  unfold transferAllocates
  cases b.transfer with
  | call _ func _ => cases hf : callAllocates func <;> simp [hf, applyEvent]
  | _ => rfl

end Analyze

/-! ## The regions after a list of events -/

/-- A region of this push was found. -/
def Has (rs : List RegionInfo) (u : RegionId) : Prop := ∃ r ∈ rs, r.pushLoc = u

/-- The region of this push has an allocation. -/
def Marked (rs : List RegionInfo) (u : RegionId) : Prop :=
  ∃ r ∈ rs, r.pushLoc = u ∧ r.hasStackAlloc = true

/-- This pop closes the region of this push. -/
def PopOf (rs : List RegionInfo) (u x : RegionId) : Prop :=
  ∃ r ∈ rs, r.pushLoc = u ∧ x ∈ r.popLocs

/-- The pushes an event finds. -/
def Event.Finds : Event → RegionId → Prop
  | .opened v, u => u = v
  | .closed v _, u => u = v
  | .alloc stk, u => u ∈ stk

/-- The regions an event finds an allocation in. -/
def Event.Marks : Event → RegionId → Prop
  | .alloc stk, u => u ∈ stk
  | _, _ => False

/-- The regions an event finds a pop of. -/
def Event.Closes : Event → RegionId → RegionId → Prop
  | .closed v y, u, x => u = v ∧ x = y
  | _, _, _ => False

section Regions

variable {rs : List RegionInfo} {u v x y : RegionId}

theorem has_getOrCreateRegion : Has (getOrCreateRegion rs v) u ↔ Has rs u ∨ u = v := by
  unfold getOrCreateRegion
  split
  · rename_i h
    obtain ⟨r, hr, hv⟩ := List.any_eq_true.mp h
    refine ⟨Or.inl, fun h => h.elim id ?_⟩
    rintro rfl
    exact ⟨r, hr, by simpa using hv⟩
  · simp [Has, or_comm, eq_comm]

theorem marked_getOrCreateRegion : Marked (getOrCreateRegion rs v) u ↔ Marked rs u := by
  unfold getOrCreateRegion
  split
  · rfl
  · simp [Marked]

theorem popOf_getOrCreateRegion : PopOf (getOrCreateRegion rs v) u x ↔ PopOf rs u x := by
  unfold getOrCreateRegion
  split
  · rfl
  · simp [PopOf]

theorem nodup_getOrCreateRegion (h : (rs.map RegionInfo.pushLoc).Nodup) :
    ((getOrCreateRegion rs v).map RegionInfo.pushLoc).Nodup := by
  unfold getOrCreateRegion
  split
  · exact h
  · rename_i hv
    simp only [List.map_cons, List.nodup_cons]
    refine ⟨fun hmem => hv ?_, h⟩
    obtain ⟨r, hr, hrv⟩ := List.mem_map.mp hmem
    exact List.any_eq_true.mpr ⟨r, hr, by simpa using hrv⟩

theorem has_updateRegion {g : RegionInfo → RegionInfo} (hg : ∀ r, (g r).pushLoc = r.pushLoc) :
    Has (updateRegion rs v g) u ↔ Has rs u ∨ u = v := by
  rw [← has_getOrCreateRegion, updateRegion, Has, Has]
  simp only [List.mem_map, exists_exists_and_eq_and]
  refine exists_congr fun r => and_congr_right fun _ => ?_
  split <;> simp [hg]

theorem nodup_updateRegion {g : RegionInfo → RegionInfo} (hg : ∀ r, (g r).pushLoc = r.pushLoc)
    (h : (rs.map RegionInfo.pushLoc).Nodup) :
    ((updateRegion rs v g).map RegionInfo.pushLoc).Nodup := by
  have hcomp : (RegionInfo.pushLoc ∘ fun r => if r.pushLoc = v then g r else r)
      = RegionInfo.pushLoc := by
    funext r
    simp only [Function.comp_apply]
    split <;> simp [hg]
  rw [updateRegion, List.map_map, hcomp]
  exact nodup_getOrCreateRegion h

theorem has_markRegion : Has (markRegion rs v) u ↔ Has rs u ∨ u = v :=
  has_updateRegion fun _ => rfl

theorem marked_markRegion : Marked (markRegion rs v) u ↔ Marked rs u ∨ u = v := by
  rw [← @marked_getOrCreateRegion rs u v, markRegion, updateRegion, Marked, Marked]
  simp only [List.mem_map, exists_exists_and_eq_and]
  constructor
  · rintro ⟨r, hr, hru, hm⟩
    split at hru
    · rename_i hrv
      exact Or.inr (hru.symm.trans hrv)
    · rename_i hrv
      exact Or.inl ⟨r, hr, hru, by simpa [hrv] using hm⟩
  · rintro (⟨r, hr, rfl, hm⟩ | rfl)
    · exact ⟨r, hr, by split <;> simp, by split <;> simp [hm]⟩
    · obtain ⟨r, hr, hru⟩ := has_getOrCreateRegion.mpr (Or.inr rfl : Has rs u ∨ u = u)
      exact ⟨r, hr, by simp [hru], by simp [hru]⟩

theorem popOf_markRegion : PopOf (markRegion rs v) u x ↔ PopOf rs u x := by
  rw [← @popOf_getOrCreateRegion rs u v x, markRegion, updateRegion, PopOf, PopOf]
  simp only [List.mem_map, exists_exists_and_eq_and]
  refine exists_congr fun r => and_congr_right fun _ => ?_
  split <;> simp

theorem marked_pushPopLoc : Marked (pushPopLoc rs v y) u ↔ Marked rs u := by
  rw [← @marked_getOrCreateRegion rs u v, pushPopLoc, updateRegion, Marked, Marked]
  simp only [List.mem_map, exists_exists_and_eq_and]
  refine exists_congr fun r => and_congr_right fun _ => ?_
  split <;> simp

theorem popOf_pushPopLoc : PopOf (pushPopLoc rs v y) u x ↔ PopOf rs u x ∨ (u = v ∧ x = y) := by
  rw [← @popOf_getOrCreateRegion rs u v x, pushPopLoc, updateRegion, PopOf, PopOf]
  simp only [List.mem_map, exists_exists_and_eq_and]
  constructor
  · rintro ⟨r, hr, hru, hx⟩
    split at hru
    · rename_i hrv
      simp only [hrv, if_true, List.mem_cons] at hx
      rcases hx with rfl | hx
      · exact Or.inr ⟨hru.symm.trans hrv, rfl⟩
      · exact Or.inl ⟨r, hr, hru, hx⟩
    · rename_i hrv
      exact Or.inl ⟨r, hr, hru, by simpa [hrv] using hx⟩
  · rintro (⟨r, hr, rfl, hx⟩ | ⟨rfl, rfl⟩)
    · exact ⟨r, hr, by split <;> simp, by split <;> simp [hx]⟩
    · obtain ⟨r, hr, hru⟩ := has_getOrCreateRegion.mpr (Or.inr rfl : Has rs u ∨ u = u)
      exact ⟨r, hr, by simp [hru], by simp [hru]⟩

theorem foldl_markRegion : ∀ (stk : List RegionId) (rs : List RegionInfo),
    (∀ u, Has (stk.foldl markRegion rs) u ↔ Has rs u ∨ u ∈ stk) ∧
      (∀ u, Marked (stk.foldl markRegion rs) u ↔ Marked rs u ∨ u ∈ stk) ∧
      (∀ u x, PopOf (stk.foldl markRegion rs) u x ↔ PopOf rs u x) ∧
      ((rs.map RegionInfo.pushLoc).Nodup →
        ((stk.foldl markRegion rs).map RegionInfo.pushLoc).Nodup)
  | [], _ => by simp
  | v :: stk, rs => by
    obtain ⟨h1, h2, h3, h4⟩ := foldl_markRegion stk (markRegion rs v)
    refine ⟨fun u => ?_, fun u => ?_, fun u x => ?_, fun h => ?_⟩
    · rw [List.foldl_cons, h1, has_markRegion, List.mem_cons, or_assoc]
    · rw [List.foldl_cons, h2, marked_markRegion, List.mem_cons, or_assoc]
    · rw [List.foldl_cons, h3, popOf_markRegion]
    · exact h4 (nodup_updateRegion (fun _ => rfl) h)

end Regions

/-- What one event does to the regions. -/
theorem applyEvent_spec (st : State) (e : Event) :
    (∀ u, Has (applyEvent st e).regions u ↔ Has st.regions u ∨ e.Finds u) ∧
      (∀ u, Marked (applyEvent st e).regions u ↔ Marked st.regions u ∨ e.Marks u) ∧
      (∀ u x, PopOf (applyEvent st e).regions u x ↔ PopOf st.regions u x ∨ e.Closes u x) ∧
      ((st.regions.map RegionInfo.pushLoc).Nodup →
        ((applyEvent st e).regions.map RegionInfo.pushLoc).Nodup) := by
  cases e with
  | opened v =>
    exact ⟨fun u => has_getOrCreateRegion, fun u => by simp [applyEvent, Event.Marks,
      marked_getOrCreateRegion], fun u x => by simp [applyEvent, Event.Closes,
      popOf_getOrCreateRegion], nodup_getOrCreateRegion⟩
  | closed v y =>
    exact ⟨fun u => has_updateRegion fun _ => rfl, fun u => by simp [applyEvent, Event.Marks,
      marked_pushPopLoc], fun u x => popOf_pushPopLoc, nodup_updateRegion fun _ => rfl⟩
  | alloc stk =>
    have hregions : (markRegionsAllocate st stk).regions = stk.foldl markRegion st.regions := by
      cases stk <;> rfl
    obtain ⟨h1, h2, h3, h4⟩ := foldl_markRegion stk st.regions
    simp only [applyEvent, hregions]
    exact ⟨h1, h2, fun u x => by simp [Event.Closes, h3], h4⟩

/-- **The regions after a list of events**, order forgotten. -/
theorem foldl_applyEvent : ∀ (es : List Event) (st : State),
    (∀ u, Has (es.foldl applyEvent st).regions u ↔ Has st.regions u ∨ ∃ e ∈ es, e.Finds u) ∧
      (∀ u, Marked (es.foldl applyEvent st).regions u ↔
        Marked st.regions u ∨ ∃ e ∈ es, e.Marks u) ∧
      (∀ u x, PopOf (es.foldl applyEvent st).regions u x ↔
        PopOf st.regions u x ∨ ∃ e ∈ es, e.Closes u x) ∧
      ((st.regions.map RegionInfo.pushLoc).Nodup →
        ((es.foldl applyEvent st).regions.map RegionInfo.pushLoc).Nodup)
  | [], _ => by simp
  | e :: es, st => by
    obtain ⟨a1, a2, a3, a4⟩ := applyEvent_spec st e
    obtain ⟨h1, h2, h3, h4⟩ := foldl_applyEvent es (applyEvent st e)
    refine ⟨fun u => ?_, fun u => ?_, fun u x => ?_, fun h => h4 (a4 h)⟩
    · rw [List.foldl_cons, h1, a1, List.exists_mem_cons_iff, or_assoc]
    · rw [List.foldl_cons, h2, a2, List.exists_mem_cons_iff, or_assoc]
    · rw [List.foldl_cons, h3, a3, List.exists_mem_cons_iff, or_assoc]

/-- Events leave the noted stacks alone. -/
theorem blockDepth_foldl_applyEvent : ∀ (es : List Event) (st : State),
    (es.foldl applyEvent st).blockDepth = st.blockDepth
  | [], _ => rfl
  | e :: es, st => by
    have he : (applyEvent st e).blockDepth = st.blockDepth := by
      cases e with
      | alloc stk => cases stk <;> rfl
      | _ => rfl
    rw [List.foldl_cons, blockDepth_foldl_applyEvent es, he]

/-- The statements removed are those of unmarked regions. -/
theorem mem_stmtsToRemove {rs : List RegionInfo} (h : (rs.map RegionInfo.pushLoc).Nodup)
    {x : RegionId} :
    x ∈ stmtsToRemove rs ↔ ∃ u, Has rs u ∧ ¬ Marked rs u ∧ (x = u ∨ PopOf rs u x) := by
  have huniq : ∀ r ∈ rs, ∀ r' ∈ rs, r.pushLoc = r'.pushLoc → r = r' :=
    fun r hr r' hr' heq => List.inj_on_of_nodup_map h hr hr' heq
  simp only [stmtsToRemove, List.mem_flatMap]
  constructor
  · rintro ⟨r, hr, hx⟩
    split at hx
    · simp at hx
    · rename_i hm
      refine ⟨r.pushLoc, ⟨r, hr, rfl⟩, ?_, ?_⟩
      · rintro ⟨r', hr', heq, hm'⟩
        exact hm (huniq r' hr' r hr heq ▸ hm')
      · exact (List.mem_cons.mp hx).imp id fun hx => ⟨r, hr, rfl, hx⟩
  · rintro ⟨_, ⟨r, hr, rfl⟩, hm, hx⟩
    refine ⟨r, hr, ?_⟩
    rw [if_neg fun hr' => hm ⟨r, hr, rfl, hr'⟩]
    rcases hx with rfl | ⟨r', hr', heq, hx⟩
    · exact List.mem_cons_self ..
    · exact List.mem_cons_of_mem _ (huniq r' hr' r hr heq ▸ hx)

end RemoveRegions

end MLton.Ssa
