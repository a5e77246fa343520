import MLton.Basic.DirectedGraph

/-!
# Basic/StrongComponents — `stronglyConnectedComponents` is correct

The search keeps the classical invariant: the nodes visited are those on the stack and those in the
components found, which are settled — strongly connected, and with edges only among themselves and
into components found earlier.  `Inv` is the invariant, `Visited` what one visit does, `Looping` what
is known between two edges of a visit.
-/

namespace MLton.DirectedGraph

variable {ν : Type*} [DecidableEq ν] {g : DirectedGraph ν}

/-! ## The operations on the state -/

@[simp] theorem lower_count (s : SccState ν) (v : ν) (k : ℕ) : (lower s v k).count = s.count := by
  unfold lower
  split <;> rfl

@[simp] theorem lower_stack (s : SccState ν) (v : ν) (k : ℕ) : (lower s v k).stack = s.stack := by
  unfold lower
  split <;> rfl

@[simp] theorem lower_components (s : SccState ν) (v : ν) (k : ℕ) :
    (lower s v k).components = s.components := by
  unfold lower
  split <;> rfl

@[simp] theorem lower_dfnumber (s : SccState ν) (v : ν) (k : ℕ) :
    (lower s v k).dfnumber = s.dfnumber := by
  unfold lower
  split <;> rfl

@[simp] theorem lower_isOnStack (s : SccState ν) (v : ν) (k : ℕ) :
    (lower s v k).isOnStack = s.isOnStack := by
  unfold lower
  split <;> rfl

@[simp] theorem lower_bug (s : SccState ν) (v : ν) (k : ℕ) : (lower s v k).bug = s.bug := by
  unfold lower
  split <;> rfl

@[simp] theorem lower_lowlink_self (s : SccState ν) (v : ν) (k : ℕ) :
    (lower s v k).lowlink v = min k (s.lowlink v) := by
  unfold lower
  split
  · simp only [Function.update_self]
    omega
  · omega

theorem lower_lowlink_of_ne (s : SccState ν) {v x : ν} (k : ℕ) (h : x ≠ v) :
    (lower s v k).lowlink x = s.lowlink x := by
  unfold lower
  split
  · exact Function.update_of_ne h ..
  · rfl

/-- The stack down to `n` is popped. -/
theorem popTo_append {n : ν} {old : List ν} : ∀ {new : List ν} {ac : List ν}, n ∉ new →
    popTo n (new ++ n :: old) ac = some (old, n :: (new.reverse ++ ac))
  | [], _, _ => by simp [popTo]
  | n' :: new, ac, h => by
    have hne : n ≠ n' := fun heq => h (heq ▸ List.mem_cons_self ..)
    have hnew : n ∉ new := fun hmem => h (List.mem_cons_of_mem _ hmem)
    rw [List.cons_append, popTo, if_neg hne, popTo_append hnew]
    simp

/-! ## The invariant -/

/-- **Components that are settled**: each is strongly connected, and its edges stay in it or lead to a
component after it in the list. -/
def Settled (g : DirectedGraph ν) : List (List ν) → Prop
  | [] => True
  | C :: cs => C ≠ [] ∧ (∀ x ∈ C, ∀ y ∈ C, g.Reaches x y) ∧
      (∀ x ∈ C, ∀ y ∈ g.successors x, y ∈ C ∨ y ∈ cs.flatten) ∧ Settled g cs

omit [DecidableEq ν] in
/-- No edge leaves the settled components. -/
theorem Settled.successors : ∀ {cs : List (List ν)}, Settled g cs → ∀ x ∈ cs.flatten,
    g.successors x ⊆ cs.flatten
  | [], _, x, hx, _, _ => by simp at hx
  | C :: cs, ⟨_, _, hsucc, hcs⟩, x, hx, y, hy => by
    rw [List.flatten_cons, List.mem_append] at hx ⊢
    obtain hx | hx := hx
    · exact hsucc x hx y hy
    · exact Or.inr (hcs.successors x hx hy)

/-- What holds throughout the search.  `gray` are the nodes entered and not left, `vis` the nodes
entered. -/
structure Inv (g : DirectedGraph ν) (gray vis : List ν) (s : SccState ν) : Prop where
  bug : s.bug = false
  within : vis ⊆ g.nodes
  visited : ∀ x, x ∈ vis ↔ x ∈ s.stack ∨ x ∈ s.components.flatten
  nodup : (s.stack ++ s.components.flatten).Nodup
  onStack : ∀ x ∈ vis, (s.isOnStack x = true ↔ x ∈ s.stack)
  numLt : ∀ x ∈ vis, s.dfnumber x < s.count
  sorted : s.stack.Pairwise fun a b => s.dfnumber b < s.dfnumber a
  entered : gray ⊆ s.stack
  settled : Settled g s.components
  black : ∀ x ∈ vis, x ∉ gray → g.successors x ⊆ vis
  back : ∀ y ∈ s.stack, ∃ x ∈ gray, g.Reaches y x

theorem Inv.lower {gray vis : List ν} {s : SccState ν} (h : Inv g gray vis s) (v : ν) (k : ℕ) :
    Inv g gray vis (lower s v k) where
  bug := by simpa using h.bug
  within := h.within
  visited := by simpa using h.visited
  nodup := by simpa using h.nodup
  onStack := by simpa using h.onStack
  numLt := by simpa using h.numLt
  sorted := by simpa using h.sorted
  entered := by simpa using h.entered
  settled := by simpa using h.settled
  black := h.black
  back := by simpa using h.back

/-- **What a visit of `v` does** to the visited nodes and the state. -/
structure Visited (g : DirectedGraph ν) (gray vis : List ν) (s : SccState ν) (v : ν)
    (vis' : List ν) (s' : SccState ν) : Prop where
  inv : Inv g gray vis' s'
  subset : vis ⊆ vis'
  mem : v ∈ vis'
  stack : ∃ new, s'.stack = new ++ s.stack ∧ (∀ y ∈ new, g.Reaches v y) ∧
    ∀ y ∈ new, ∀ z ∈ g.successors y, z ∈ s.stack → s'.lowlink v ≤ s'.dfnumber z
  dfnumber : ∀ x ∈ vis, s'.dfnumber x = s.dfnumber x
  lowlink : ∀ x ∈ vis, s'.lowlink x = s.lowlink x
  num : s.count ≤ s'.dfnumber v
  origin : s'.lowlink v = s'.dfnumber v ∨
    ∃ w ∈ s.stack, s'.dfnumber w = s'.lowlink v ∧ g.Reaches v w

/-- What is known while a visit of `v` is under way, with the edges to `done` behind it. -/
structure Looping (g : DirectedGraph ν) (gray vis : List ν) (s : SccState ν) (v : ν) (done : List ν)
    (vis' : List ν) (s' : SccState ν) : Prop where
  inv : Inv g (v :: gray) vis' s'
  subset : v :: vis ⊆ vis'
  stack : ∃ new, s'.stack = new ++ v :: s.stack ∧ (∀ y ∈ new, g.Reaches v y) ∧
    ∀ y ∈ new, ∀ z ∈ g.successors y, z ∈ s.stack → s'.lowlink v ≤ s'.dfnumber z
  done : ∀ z ∈ done, z ∈ vis' ∧ (z ∈ s.stack → s'.lowlink v ≤ s'.dfnumber z)
  dfnumber : ∀ x ∈ vis, s'.dfnumber x = s.dfnumber x
  lowlink : ∀ x ∈ vis, s'.lowlink x = s.lowlink x
  num : s'.dfnumber v = s.count
  origin : s'.lowlink v = s'.dfnumber v ∨
    ∃ w ∈ s.stack, s'.dfnumber w = s'.lowlink v ∧ g.Reaches v w

section Visit

variable {gray vis vis' : List ν} {s s' : SccState ν} {v w : ν} {done : List ν}

/-- Entering a node. -/
theorem Looping.start (h : Inv g gray vis s) (hv : v ∉ vis) (hmem : v ∈ g.nodes) :
    Looping g gray vis s v [] (v :: vis) (sccStart v s) := by
  have hne : ∀ x ∈ vis, x ≠ v := fun x hx heq => hv (heq ▸ hx)
  have hstack : ∀ x ∈ s.stack, x ∈ vis := fun x hx => (h.visited x).mpr (Or.inl hx)
  have hnum : ∀ x ∈ vis, (sccStart v s).dfnumber x = s.dfnumber x := fun x hx =>
    Function.update_of_ne (hne x hx) ..
  have hself : (sccStart v s).dfnumber v = s.count := Function.update_self ..
  refine ⟨⟨h.bug, List.cons_subset.mpr ⟨hmem, h.within⟩, fun x => ?_, ?_, fun x hx => ?_, fun x hx => ?_, ?_, ?_, h.settled, ?_, ?_⟩,
    List.Subset.refl _, ⟨[], rfl, by simp, by simp⟩, by simp, hnum,
    fun x hx => Function.update_of_ne (hne x hx) .., hself, Or.inl ?_⟩
  · simp [sccStart, h.visited x, or_assoc]
  · refine List.nodup_cons.mpr ⟨fun hmem => hv ((h.visited v).mpr ?_), h.nodup⟩
    exact List.mem_append.mp hmem
  · obtain rfl | hx := List.mem_cons.mp hx
    · simp [sccStart]
    · simp [sccStart, hne x hx, h.onStack x hx]
  · obtain rfl | hx := List.mem_cons.mp hx
    · rw [hself]
      exact Nat.lt_succ_self _
    · rw [hnum x hx]
      exact Nat.lt_succ_of_lt (h.numLt x hx)
  · refine List.pairwise_cons.mpr ⟨fun x hx => ?_, h.sorted.imp_of_mem fun hx hy hxy => ?_⟩
    · rw [hself, hnum x (hstack x hx)]
      exact h.numLt x (hstack x hx)
    · rwa [hnum _ (hstack _ hx), hnum _ (hstack _ hy)]
  · exact List.cons_subset_cons v h.entered
  · intro x hx hgray
    obtain rfl | hx := List.mem_cons.mp hx
    · exact absurd (List.mem_cons_self ..) hgray
    · exact List.subset_cons_of_subset _
        (h.black x hx fun hmem => hgray (List.mem_cons_of_mem _ hmem))
  · intro y hy
    obtain rfl | hy := List.mem_cons.mp hy
    · exact ⟨y, List.mem_cons_self .., .refl⟩
    · obtain ⟨x, hx, hyx⟩ := h.back y hy
      exact ⟨x, List.mem_cons_of_mem _ hx, hyx⟩
  · rw [hself]
    exact Function.update_self ..

omit [DecidableEq ν] in
/-- On the stack, what lies above `v` has the higher number, and what lies below the lower. -/
theorem Looping.num_lt (h : Looping g gray vis s v done vis' s') (hw : w ∈ s'.stack)
    (hlt : s'.dfnumber w < s'.dfnumber v) : w ∈ s.stack := by
  obtain ⟨new, hstack, -, -⟩ := h.stack
  have hsorted := h.inv.sorted
  rw [hstack, List.pairwise_append] at hsorted
  rw [hstack, List.mem_append, List.mem_cons] at hw
  obtain hw | rfl | hw := hw
  · exact absurd (hsorted.2.2 w hw v (List.mem_cons_self ..)) (Nat.lt_asymm hlt)
  · exact absurd hlt (Nat.lt_irrefl _)
  · exact hw

omit [DecidableEq ν] in
theorem Looping.lt_num (h : Looping g gray vis s v done vis' s') (hw : w ∈ s.stack) :
    s'.dfnumber w < s'.dfnumber v := by
  obtain ⟨new, hstack, -, -⟩ := h.stack
  have hsorted := h.inv.sorted
  rw [hstack, List.pairwise_append] at hsorted
  exact (List.pairwise_cons.mp hsorted.2.1).1 w hw

omit [DecidableEq ν] in
theorem Looping.lowlink_le (h : Looping g gray vis s v done vis' s') :
    s'.lowlink v ≤ s'.dfnumber v := by
  obtain heq | ⟨w, hw, heq, -⟩ := h.origin
  · exact Nat.le_of_eq heq
  · rw [← heq]
    exact Nat.le_of_lt (h.lt_num hw)

/-- Lowering `#lowlink v` to the number of a node of the old stack that `v` reaches. -/
theorem Looping.lower (h : Looping g gray vis s v done vis' s') (hv : v ∉ vis) {k : ℕ}
    (hk : k < s'.lowlink v → ∃ u ∈ s.stack, s'.dfnumber u = k ∧ g.Reaches v u) :
    Looping g gray vis s v done vis' (lower s' v k) := by
  have hle : (DirectedGraph.lower s' v k).lowlink v ≤ s'.lowlink v := by
    rw [lower_lowlink_self]
    exact Nat.min_le_right ..
  obtain ⟨new, hstack, hreach, hbound⟩ := h.stack
  refine ⟨h.inv.lower v k, h.subset, ⟨new, by simpa using hstack, hreach, fun y hy z hz hzs => ?_⟩,
    fun z hz => ⟨(h.done z hz).1, fun hzs => ?_⟩, by simpa using h.dfnumber, fun x hx => ?_,
    by simpa using h.num, ?_⟩
  · rw [lower_dfnumber]
    exact Nat.le_trans hle (hbound y hy z hz hzs)
  · rw [lower_dfnumber]
    exact Nat.le_trans hle ((h.done z hz).2 hzs)
  · rw [lower_lowlink_of_ne _ _ fun heq : x = v => hv (heq ▸ hx)]
    exact h.lowlink x hx
  · rw [lower_dfnumber, lower_lowlink_self]
    by_cases hlt : k < s'.lowlink v
    · rw [Nat.min_eq_left (Nat.le_of_lt hlt)]
      exact Or.inr (hk hlt)
    · rw [Nat.min_eq_right (Nat.le_of_not_lt hlt)]
      exact h.origin

/-- An edge to a node visited before. -/
theorem Looping.nonTree (h : Looping g gray vis s v done vis' s') (hv : v ∉ vis) (hw : w ∈ vis')
    (hvw : g.Reaches v w) : Looping g gray vis s v (w :: done) vis' (sccNonTree v w s') := by
  unfold sccNonTree
  split
  · rename_i hcond
    have hold : w ∈ s.stack := h.num_lt ((h.inv.onStack w hw).mp hcond.2) hcond.1
    have hlower := h.lower (k := s'.dfnumber w) hv fun _ => ⟨w, hold, rfl, hvw⟩
    refine { hlower with done := fun z hz => ?_ }
    obtain rfl | hz := List.mem_cons.mp hz
    · refine ⟨hw, fun _ => ?_⟩
      rw [lower_lowlink_self, lower_dfnumber]
      exact Nat.min_le_left ..
    · exact hlower.done z hz
  · rename_i hcond
    refine { h with done := fun z hz => ?_ }
    obtain rfl | hz := List.mem_cons.mp hz
    · refine ⟨hw, fun hzs => absurd ⟨h.lt_num hzs, ?_⟩ hcond⟩
      obtain ⟨new, hstack, -, -⟩ := h.stack
      exact (h.inv.onStack z hw).mpr (by simp [hstack, hzs])
    · exact h.done z hz

/-- An edge into a subtree, once it is done. -/
theorem Looping.tree {vis'' : List ν} {s'' : SccState ν} (h : Looping g gray vis s v done vis' s')
    (hv : v ∉ vis) (hvw : g.Reaches v w) (hnew : w ∉ vis')
    (hw : Visited g (v :: gray) vis' s' w vis'' s'') :
    Looping g gray vis s v (w :: done) vis'' (sccTree v w s'') := by
  have hvis : v ∈ vis' := h.subset (List.mem_cons_self ..)
  have hsub : vis ⊆ vis' := fun x hx => h.subset (List.mem_cons_of_mem _ hx)
  have hlow : s''.lowlink v = s'.lowlink v := hw.lowlink v hvis
  have hnum : s''.dfnumber v = s'.dfnumber v := hw.dfnumber v hvis
  obtain ⟨new, hstack, hreach, hbound⟩ := h.stack
  obtain ⟨new₂, hstack₂, hreach₂, hbound₂⟩ := hw.stack
  have hold : ∀ z ∈ s.stack, z ∈ s'.stack := fun z hz => by simp [hstack, hz]
  have hnums : ∀ z ∈ s.stack, s''.dfnumber z = s'.dfnumber z := fun z hz =>
    hw.dfnumber z ((h.inv.visited z).mpr (Or.inl (hold z hz)))
  have hle : (sccTree v w s'').lowlink v ≤ s'.lowlink v ∧
      (sccTree v w s'').lowlink v ≤ s''.lowlink w := by
    rw [sccTree, lower_lowlink_self, hlow]
    exact ⟨Nat.min_le_right .., Nat.min_le_left ..⟩
  refine ⟨hw.inv.lower v _, List.Subset.trans h.subset hw.subset,
    ⟨new₂ ++ new, by simp [sccTree, hstack₂, hstack], fun y hy => ?_, fun y hy z hz hzs => ?_⟩,
    fun z hz => ?_, fun x hx => ?_, fun x hx => ?_, ?_, ?_⟩
  · obtain hy | hy := List.mem_append.mp hy
    · exact hvw.trans (hreach₂ y hy)
    · exact hreach y hy
  · rw [sccTree, lower_dfnumber]
    obtain hy | hy := List.mem_append.mp hy
    · exact Nat.le_trans hle.2 (hbound₂ y hy z hz (hold z hzs))
    · rw [hnums z hzs]
      exact Nat.le_trans hle.1 (hbound y hy z hz hzs)
  · rw [sccTree, lower_dfnumber]
    obtain rfl | hz := List.mem_cons.mp hz
    · exact ⟨hw.mem, fun hzs => absurd ((h.inv.visited z).mpr (Or.inl (hold z hzs))) hnew⟩
    · refine ⟨hw.subset (h.done z hz).1, fun hzs => ?_⟩
      rw [hnums z hzs]
      exact Nat.le_trans hle.1 ((h.done z hz).2 hzs)
  · rw [sccTree, lower_dfnumber, hw.dfnumber x (hsub hx), h.dfnumber x hx]
  · rw [sccTree, lower_lowlink_of_ne _ _ fun heq : x = v => hv (heq ▸ hx),
      hw.lowlink x (hsub hx), h.lowlink x hx]
  · rw [sccTree, lower_dfnumber, hnum, h.num]
  · rw [sccTree, lower_dfnumber, lower_lowlink_self, hlow, hnum]
    by_cases hlt : s''.lowlink w < s'.lowlink v
    · -- the subtree reaches below itself, and so below `v`
      rw [Nat.min_eq_left (Nat.le_of_lt hlt)]
      have hltv : s''.lowlink w < s'.dfnumber v := Nat.lt_of_lt_of_le hlt h.lowlink_le
      obtain heq | ⟨u, hu, heq, hwu⟩ := hw.origin
      · have := h.inv.numLt v hvis
        have := hw.num
        omega
      · have hunum : s''.dfnumber u = s'.dfnumber u :=
          hw.dfnumber u ((h.inv.visited u).mpr (Or.inl hu))
        exact Or.inr ⟨u, h.num_lt hu (by omega), heq, hvw.trans hwu⟩
    · rw [Nat.min_eq_right (Nat.le_of_not_lt hlt)]
      obtain heq | ⟨u, hu, heq, hvu⟩ := h.origin
      · exact Or.inl heq
      · exact Or.inr ⟨u, hu, by rw [hnums u hu, heq], hvu⟩

/-- With every edge behind it, a node that is left has only visited successors. -/
theorem Looping.successors (h : Looping g gray vis s v done vis' s')
    (hdone : ∀ z ∈ g.successors v, z ∈ done) : ∀ x ∈ vis', x ∉ gray → g.successors x ⊆ vis' := by
  intro x hx hgray
  by_cases hxv : x = v
  · subst hxv
    exact fun z hz => (h.done z (hdone z hz)).1
  · exact h.inv.black x hx fun hmem => (List.mem_cons.mp hmem).elim hxv hgray

/-- Leaving a node that reaches below itself: it stays on the stack. -/
theorem Looping.finish_stay (h : Looping g gray vis s v done vis' s') (hs : Inv g gray vis s)
    (hdone : ∀ z ∈ g.successors v, z ∈ done) (hne : s'.lowlink v ≠ s'.dfnumber v) :
    Visited g gray vis s v vis' s' := by
  obtain ⟨new, hstack, hreach, hbound⟩ := h.stack
  obtain ⟨w, hw, hwnum, hvw⟩ := h.origin.resolve_left hne
  obtain ⟨x, hx, hwx⟩ := hs.back w hw
  refine ⟨⟨h.inv.bug, h.inv.within, h.inv.visited, h.inv.nodup, h.inv.onStack, h.inv.numLt, h.inv.sorted,
    fun y hy => h.inv.entered (List.mem_cons_of_mem _ hy), h.inv.settled,
    h.successors hdone, fun y hy => ?_⟩,
    fun y hy => h.subset (List.mem_cons_of_mem _ hy), h.subset (List.mem_cons_self ..),
    ⟨new ++ [v], by simp [hstack], fun y hy => ?_, fun y hy z hz hzs => ?_⟩, h.dfnumber, h.lowlink,
    Nat.le_of_eq h.num.symm, h.origin⟩
  · obtain ⟨u, hu, hyu⟩ := h.inv.back y hy
    obtain rfl | hu := List.mem_cons.mp hu
    · exact ⟨x, hx, (hyu.trans hvw).trans hwx⟩
    · exact ⟨u, hu, hyu⟩
  · obtain hy | hy := List.mem_append.mp hy
    · exact hreach y hy
    · rw [List.mem_singleton.mp hy]
  · obtain hy | hy := List.mem_append.mp hy
    · exact hbound y hy z hz hzs
    · obtain rfl := List.mem_singleton.mp hy
      exact (h.done z (hdone z hz)).2 hzs

theorem perm_pop (new old X : List ν) (v : ν) :
    (new ++ v :: old ++ X).Perm (old ++ (v :: new.reverse ++ X)) :=
  List.perm_iff_count.mpr fun a => by
    simp only [List.count_append, List.count_cons, List.count_reverse]
    omega

/-- The edges of the stack from `v` up, when `v` does not reach below itself. -/
theorem Looping.closed (h : Looping g gray vis s v done vis' s') (hs : gray ⊆ s.stack)
    (hdone : ∀ z ∈ g.successors v, z ∈ done) (heq : s'.lowlink v = s'.dfnumber v) {new : List ν}
    (hstack : s'.stack = new ++ v :: s.stack)
    (hbound : ∀ y ∈ new, ∀ z ∈ g.successors y, z ∈ s.stack → s'.lowlink v ≤ s'.dfnumber z) :
    ∀ x ∈ v :: new.reverse, ∀ y ∈ g.successors x,
      y ∈ v :: new.reverse ∨ y ∈ s'.components.flatten := by
  have hnodup := h.inv.nodup
  rw [hstack, (perm_pop new s.stack _ v).nodup_iff, List.nodup_append] at hnodup
  have hmem : ∀ x, x ∈ v :: new.reverse → x ∈ s'.stack ∧ x ∉ gray := by
    intro x hx
    refine ⟨?_, fun hgray => hnodup.2.2 x (hs hgray) x (List.mem_append_left _ hx) rfl⟩
    simp only [List.mem_cons, List.mem_reverse] at hx
    simp only [hstack, List.mem_append, List.mem_cons]
    exact hx.elim (fun h => Or.inr (Or.inl h)) Or.inl
  intro x hx y hy
  have hyold : y ∉ s.stack := by
    intro hyold
    have hlt := h.lt_num hyold
    have hle : s'.lowlink v ≤ s'.dfnumber y := by
      obtain rfl | hx := List.mem_cons.mp hx
      · exact (h.done y (hdone y hy)).2 hyold
      · exact hbound x (List.mem_reverse.mp hx) y hy hyold
    omega
  have hyvis : y ∈ vis' :=
    h.successors hdone x ((h.inv.visited x).mpr (Or.inl (hmem x hx).1)) (hmem x hx).2 hy
  obtain hy | hy := (h.inv.visited y).mp hyvis
  · simp only [hstack, List.mem_append, List.mem_cons] at hy
    simp only [List.mem_cons, List.mem_reverse]
    exact Or.inl (hy.elim Or.inr fun hy => Or.inl (hy.resolve_right hyold))
  · exact Or.inr hy

/-- Leaving a node that does not: the stack from it up is a component. -/
theorem Looping.finish_pop (h : Looping g gray vis s v done vis' s') (hs : Inv g gray vis s)
    (hdone : ∀ z ∈ g.successors v, z ∈ done) (heq : s'.lowlink v = s'.dfnumber v) :
    Visited g gray vis s v vis' (sccFinish v s') := by
  obtain ⟨new, hstack, hreach, hbound⟩ := h.stack
  have hclosed := h.closed hs.entered hdone heq hstack hbound
  have hnodup := h.inv.nodup
  rw [hstack, (perm_pop new s.stack _ v).nodup_iff] at hnodup
  have hdisj := (List.nodup_append.mp hnodup).2.2
  have hvnew : v ∉ new := fun hmem =>
    (List.nodup_cons.mp (List.nodup_append.mp (List.nodup_append.mp hnodup).2.1).1).1
      (List.mem_reverse.mpr hmem)
  have hfinish : sccFinish v s' = { s' with
      stack := s.stack
      isOnStack := fun w => if w ∈ v :: new.reverse then false else s'.isOnStack w
      components := (v :: new.reverse) :: s'.components } := by
    rw [sccFinish, if_pos heq, hstack, popTo_append hvnew, List.append_nil]
  have hmem : ∀ x, x ∈ s'.stack ↔ x ∈ s.stack ∨ x ∈ v :: new.reverse := by
    intro x
    simp only [hstack, List.mem_append, List.mem_cons, List.mem_reverse]
    tauto
  -- every node of the component reaches `v`: a path to an older node would have to leave it
  have hto : ∀ y ∈ v :: new.reverse, g.Reaches y v := by
    intro y hy
    have hin : ∀ x, g.Reaches y x → x ∈ v :: new.reverse ++ s'.components.flatten := by
      intro x hyx
      induction hyx with
      | refl => exact List.mem_append_left _ hy
      | tail _ huv ih =>
        obtain hu | hu := List.mem_append.mp ih
        · exact List.mem_append.mpr (hclosed _ hu _ huv)
        · exact List.mem_append_right _ (h.inv.settled.successors _ hu huv)
    obtain ⟨x, hx, hyx⟩ := h.inv.back y ((hmem y).mpr (Or.inr hy))
    obtain rfl | hx := List.mem_cons.mp hx
    · exact hyx
    · exact absurd rfl (hdisj x (hs.entered hx) x (hin x hyx))
  have hfrom : ∀ y ∈ v :: new.reverse, g.Reaches v y := by
    intro y hy
    obtain rfl | hy := List.mem_cons.mp hy
    · exact .refl
    · exact hreach y (List.mem_reverse.mp hy)
  rw [hfinish]
  refine ⟨⟨h.inv.bug, h.inv.within, fun x => ?_, by simpa using hnodup, fun x hx => ?_, h.inv.numLt, ?_,
    hs.entered, ⟨by simp, fun x hx y hy => (hto x hx).trans (hfrom y hy), hclosed,
      h.inv.settled⟩, h.successors hdone, hs.back⟩,
    fun y hy => h.subset (List.mem_cons_of_mem _ hy), h.subset (List.mem_cons_self ..),
    ⟨[], rfl, by simp, by simp⟩, h.dfnumber, h.lowlink, Nat.le_of_eq h.num.symm, h.origin⟩
  · rw [h.inv.visited x, hmem x, List.flatten_cons, List.mem_append, or_assoc]
  · by_cases hxC : x ∈ v :: new.reverse
    · have hxold : x ∉ s.stack := fun hx =>
        hdisj x hx x (List.mem_append_left _ hxC) rfl
      simp [hxC, hxold]
    · simp only [hxC, if_false]
      rw [h.inv.onStack x hx, hmem x]
      simp [hxC]
  · have hsorted := h.inv.sorted
    rw [hstack, List.pairwise_append] at hsorted
    exact (List.pairwise_cons.mp hsorted.2.1).2

/-- Leaving a node. -/
theorem Looping.finish (h : Looping g gray vis s v done vis' s') (hs : Inv g gray vis s)
    (hdone : ∀ z ∈ g.successors v, z ∈ done) : Visited g gray vis s v vis' (sccFinish v s') := by
  by_cases heq : s'.lowlink v = s'.dfnumber v
  · exact h.finish_pop hs hdone heq
  · rw [sccFinish, if_neg heq]
    exact h.finish_stay hs hdone heq

/-- **A visit does what it should.** -/
theorem visit_spec (hg : g.Closed) : ∀ (k : ℕ) (gray vis : List ν) (s : SccState ν) (v : ν),
    Inv g gray vis s → v ∉ vis → v ∈ g.nodes → Dfs.unvisited g.nodes vis < k →
      Visited g gray vis s v (visit g sccParam k (vis, s) v).1 (visit g sccParam k (vis, s) v).2
  | 0, _, _, _, _, _, _, _, hk => absurd hk (Nat.not_lt_zero _)
  | k + 1, gray, vis, s, v, hs, hv, hmem, hk => by
    have hlt := Dfs.unvisited_cons_lt hmem hv
    -- the edges one by one
    have hedges : ∀ (ws done : List ν) (st : List ν × SccState ν),
        ws ⊆ g.successors v → Looping g gray vis s v done st.1 st.2 →
        ∃ done', ws ⊆ done' ∧ done ⊆ done' ∧
          Looping g gray vis s v done'
            (ws.foldl (visitEdge sccParam (visit g sccParam k) v) st).1
            (ws.foldl (visitEdge sccParam (visit g sccParam k) v) st).2 := by
      intro ws
      induction ws with
      | nil => exact fun done st _ h => ⟨done, by simp, List.Subset.refl _, h⟩
      | cons w ws ih =>
        intro done st hws h
        have hw : w ∈ g.successors v := hws (List.mem_cons_self ..)
        have hvw : g.Reaches v w := .single hw
        have hnext : Looping g gray vis s v (w :: done)
            (visitEdge sccParam (visit g sccParam k) v st w).1
            (visitEdge sccParam (visit g sccParam k) v st w).2 := by
          unfold visitEdge
          split
          · rename_i hold
            exact h.nonTree hv hold hvw
          · rename_i hnew
            refine h.tree hv hvw hnew (visit_spec hg k (v :: gray) st.1 st.2 w h.inv hnew
              (hg v hmem hw) ?_)
            have := Dfs.unvisited_anti (U := g.nodes) h.subset
            omega
        obtain ⟨done', hsub, hsub', hloop⟩ := ih (w :: done) _
          (fun x hx => hws (List.mem_cons_of_mem _ hx)) hnext
        refine ⟨done', ?_, fun x hx => hsub' (List.mem_cons_of_mem _ hx), hloop⟩
        exact List.cons_subset.mpr ⟨hsub' (List.mem_cons_self ..), hsub⟩
    obtain ⟨done', hsub, -, hloop⟩ := hedges (g.successors v) [] (v :: vis, sccStart v s)
      (List.Subset.refl _) (.start hs hv hmem)
    exact hloop.finish hs fun z hz => hsub hz

end Visit

/-! ## The components -/

omit [DecidableEq ν] in
theorem Inv.init : Inv g [] [] sccInit where
  bug := rfl
  within := by simp
  visited := by simp [sccInit]
  nodup := by simp [sccInit]
  onStack := by simp
  numLt := by simp
  sorted := by simp [sccInit]
  entered := by simp
  settled := trivial
  black := by simp
  back := by simp [sccInit]

theorem dfsNodes_spec (hg : g.Closed) : ∀ (ns : List ν) (st : List ν × SccState ν), ns ⊆ g.nodes →
    Inv g [] st.1 st.2 →
      Inv g [] (ns.foldl (dfsRoot g sccParam) st).1 (ns.foldl (dfsRoot g sccParam) st).2 ∧
        st.1 ⊆ (ns.foldl (dfsRoot g sccParam) st).1 ∧ ns ⊆ (ns.foldl (dfsRoot g sccParam) st).1
  | [], st, _, h => ⟨h, List.Subset.refl _, by simp⟩
  | n :: ns, st, hns, h => by
    have hroot : Inv g [] (dfsRoot g sccParam st n).1 (dfsRoot g sccParam st n).2 ∧
        st.1 ⊆ (dfsRoot g sccParam st n).1 ∧ n ∈ (dfsRoot g sccParam st n).1 := by
      unfold dfsRoot
      split
      · rename_i hmem
        exact ⟨h, List.Subset.refl _, hmem⟩
      · rename_i hmem
        have hvisit := visit_spec hg (g.nodes.length + 1) [] st.1 st.2 n h hmem
          (hns (List.mem_cons_self ..)) (Nat.lt_succ_of_le (List.length_filter_le _ _))
        exact ⟨hvisit.inv, hvisit.subset, hvisit.mem⟩
    obtain ⟨hinv, hsub, hall⟩ := dfsNodes_spec hg ns (dfsRoot g sccParam st n)
      (fun x hx => hns (List.mem_cons_of_mem _ hx)) hroot.1
    exact ⟨hinv, List.Subset.trans hroot.2.1 hsub, List.cons_subset.mpr ⟨hsub hroot.2.2, hall⟩⟩

/-- **The components partition the nodes, and are settled.** -/
theorem stronglyConnectedComponents_spec (hg : g.Closed) :
    ∃ cs, stronglyConnectedComponents g = some cs ∧ cs.flatten.Nodup ∧
      (∀ x, x ∈ cs.flatten ↔ x ∈ g.nodes) ∧ Settled g cs := by
  obtain ⟨hinv, -, hall⟩ := dfsNodes_spec hg g.nodes ([], sccInit) (List.Subset.refl _) Inv.init
  have hstack : ∀ y, y ∉ (dfsNodes g g.nodes sccParam sccInit).2.stack := fun y hy => by
    obtain ⟨x, hx, -⟩ := hinv.back y hy
    simp at hx
  refine ⟨(dfsNodes g g.nodes sccParam sccInit).2.components, ?_,
    (List.nodup_append.mp hinv.nodup).2.1, fun x => ⟨fun hx => ?_, fun hx => ?_⟩, hinv.settled⟩
  · have hbug : (dfsNodes g g.nodes sccParam sccInit).2.bug = false := hinv.bug
    simp [stronglyConnectedComponents, dfs, hbug]
  · exact hinv.within ((hinv.visited x).mpr (Or.inr hx))
  · exact ((hinv.visited x).mp (hall hx)).resolve_left (hstack x)

omit [DecidableEq ν] in
/-- A path out of a settled component ends after it. -/
theorem Settled.reaches {C : List ν} {cs : List (List ν)} (h : Settled g (C :: cs)) {x y : ν}
    (hx : x ∈ C) (hxy : g.Reaches x y) : y ∈ C ∨ y ∈ cs.flatten := by
  induction hxy with
  | refl => exact Or.inl hx
  | tail _ huv ih =>
    obtain hu | hu := ih
    · exact h.2.2.1 _ hu _ huv
    · exact Or.inr (h.2.2.2.successors _ hu huv)

omit [DecidableEq ν] in
theorem Settled.reaches_flatten {cs : List (List ν)} (h : Settled g cs) {x y : ν}
    (hx : x ∈ cs.flatten) (hxy : g.Reaches x y) : y ∈ cs.flatten := by
  induction hxy with
  | refl => exact hx
  | tail _ huv ih => exact h.successors _ ih huv

omit [DecidableEq ν] in
/-- **Two nodes are in one component exactly when each reaches the other.** -/
theorem Settled.mem_iff : ∀ {cs : List (List ν)}, Settled g cs → cs.flatten.Nodup →
    ∀ C ∈ cs, ∀ x ∈ C, ∀ y, y ∈ C ↔ g.Reaches x y ∧ g.Reaches y x
  | [], _, _, _, hC, _, _, _ => by simp at hC
  | D :: cs, h, hnd, C, hC, x, hx, y => by
    rw [List.flatten_cons] at hnd
    obtain rfl | hC := List.mem_cons.mp hC
    · refine ⟨fun hy => ⟨h.2.1 x hx y hy, h.2.1 y hy x hx⟩, fun ⟨hxy, hyx⟩ => ?_⟩
      refine (h.reaches hx hxy).resolve_right fun hy => ?_
      exact (List.nodup_append.mp hnd).2.2 x hx x (h.2.2.2.reaches_flatten hy hyx) rfl
    · exact h.2.2.2.mem_iff (List.nodup_append.mp hnd).2.1 C hC x hx y

omit [DecidableEq ν] in
/-- No edge leads to an earlier component. -/
theorem Settled.pairwise : ∀ {cs : List (List ν)}, Settled g cs → cs.flatten.Nodup →
    cs.Pairwise fun C D => ∀ x ∈ D, ∀ y ∈ C, y ∉ g.successors x
  | [], _, _ => .nil
  | C :: cs, h, hnd => by
    rw [List.flatten_cons, List.nodup_append] at hnd
    refine List.pairwise_cons.mpr ⟨fun D hD x hx y hy hxy => ?_, h.2.2.2.pairwise hnd.2.1⟩
    have hlater := h.2.2.2.successors x (List.mem_flatten.mpr ⟨D, hD, hx⟩) hxy
    exact hnd.2.2 y hy y hlater rfl

omit [DecidableEq ν] in
theorem Settled.ne_nil : ∀ {cs : List (List ν)}, Settled g cs → ∀ C ∈ cs, C ≠ []
  | D :: cs, h, C, hC => by
    obtain rfl | hC := List.mem_cons.mp hC
    · exact h.1
    · exact h.2.2.2.ne_nil C hC

/-- **`stronglyConnectedComponents` is correct**: there is a result, the bug not being reached; the components
partition the nodes; two nodes are in one of them exactly when each reaches the other; and no edge leads from a
component to an earlier one. -/
theorem stronglyConnectedComponents_correct (hg : g.Closed) :
    ∃ cs, stronglyConnectedComponents g = some cs ∧ cs.flatten.Nodup ∧ (∀ x, x ∈ cs.flatten ↔ x ∈ g.nodes) ∧
      (∀ C ∈ cs, C ≠ []) ∧ (∀ C ∈ cs, ∀ x ∈ C, ∀ y, y ∈ C ↔ g.Reaches x y ∧ g.Reaches y x) ∧
      cs.Pairwise fun C D => ∀ x ∈ D, ∀ y ∈ C, y ∉ g.successors x := by
  obtain ⟨cs, hcs, hnd, hmem, hsettled⟩ := stronglyConnectedComponents_spec hg
  exact ⟨cs, hcs, hnd, hmem, hsettled.ne_nil, hsettled.mem_iff hnd, hsettled.pairwise hnd⟩

/-- A cycle of two nodes, and a node that it leads to. -/
theorem stronglyConnectedComponents_lasso : ∃ cs, stronglyConnectedComponents
    (⟨[2, 1, 0], fun n => if n = 0 then [1] else if n = 1 then [0, 2] else []⟩ : DirectedGraph ℕ) = some cs ∧
      ∀ C ∈ cs, C ≠ [] := by
  obtain ⟨cs, hcs, -, -, hne, -⟩ := stronglyConnectedComponents_correct
    (g := ⟨[2, 1, 0], fun n => if n = 0 then [1] else if n = 1 then [0, 2] else []⟩) (by unfold Closed; decide)
  exact ⟨cs, hcs, hne⟩

end MLton.DirectedGraph
