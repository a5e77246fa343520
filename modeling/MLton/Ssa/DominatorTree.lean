import MLton.Basic.DominatorTree
import MLton.Ssa.Scopes

/-!
# Ssa/DominatorTree — the dominator tree of a function, and scopes along it

A variable is in scope in a block other than its own exactly when its block dominates that one
(`inScope_iff`).
-/

namespace MLton.Ssa

open MLton.Dominance

namespace Function

/-! ## The graph of the blocks -/

/-- `determineControlFlow`: the node of a label is made where the label is first met. -/
def controlFlow (f : Function) : DirectedGraph Label where
  nodes := (f.blocks.flatMap (fun b => b.label :: b.transfer.labels) ++ [f.start]).reverse.dedup
  successors l := (f.succs l).reverse

/-- `dominatorTree`, of the labels of the blocks. -/
def dominatorTree (f : Function) : Option (Tree Label) := f.controlFlow.dominatorTree f.start

variable {f : Function} {l l' : Label}

theorem mem_controlFlow_nodes : l ∈ f.controlFlow.nodes ↔ l ∈ f.labels := by
  rw [controlFlow, labels, List.mem_dedup, List.mem_reverse, List.mem_append, List.mem_singleton,
    List.mem_cons, or_comm]

theorem edge_controlFlow : Dfs.Edge f.controlFlow.successors l l' ↔ l' ∈ f.succs l := List.mem_reverse

theorem controlFlow_closed (f : Function) : f.controlFlow.Closed := fun l _ _ hl' =>
  mem_controlFlow_nodes.mpr (f.succs_subset_labels l (List.mem_reverse.mp hl'))

/-- The label can be reached from the start. -/
abbrev Visited (f : Function) (l : Label) : Prop := f.controlFlow.Reaches f.start l

/-- Every path of blocks from the start goes through `d`. -/
abbrev LabelDominates (f : Function) (d l : Label) : Prop :=
  Dominates (Dfs.Edge f.controlFlow.successors) f.start d l

/-- The immediate dominator of a label. -/
abbrev Idom (f : Function) (d l : Label) : Prop :=
  Immediate (Dfs.Edge f.controlFlow.successors) f.start d l

/-- **The dominator tree** of a function. -/
theorem dominatorTree_spec (f : Function) :
    ∃ t children, f.dominatorTree = some t ∧ t.root = f.start ∧ t.values.Nodup ∧
      (∀ l, l ∈ t.values ↔ f.Visited l) ∧ t.Linked children ∧
      ∀ d l, l ∈ children d ↔ f.Visited l ∧ f.Idom d l :=
  DirectedGraph.dominatorTree_spec f.controlFlow_closed (List.nodup_dedup _)
    (mem_controlFlow_nodes.mpr f.start_mem_labels)

section Scopes

variable {globals : List Var} {f : Function} {x z : Var} {l l' d : Label} {b : Block} {i : ℕ}
  {pt pt' q : Point}

/-! ## Points and blocks -/

theorem Scoped.exists_block (h : f.Scoped globals) (hl : f.Visited l) :
    ∃ b, f.block? l = some b := by
  cases hl with
  | refl =>
    obtain ⟨b, hb, -⟩ := h.start
    exact ⟨b, hb⟩
  | @tail u _ _ hul =>
    have hl := edge_controlFlow.mp hul
    unfold succs at hl
    split at hl
    · next b hb => exact h.targets hb l hl
    · exact absurd hl List.not_mem_nil

theorem move_of_edge (hl : l' ∈ f.succs l) :
    ∃ b, f.block? l = some b ∧ f.Moves (l, b.statements.length) (l', 0) := by
  unfold succs at hl
  split at hl
  · next b hb => exact ⟨b, hb, .transfer hb hl⟩
  · exact absurd hl List.not_mem_nil

/-- Control that gets to the start of a block can get to any point of it. -/
theorem avoids_along {D : Point → Prop} (hb : f.block? l = some b)
    (h : Avoids f.Moves f.entry D (l, 0)) : ∀ {i : ℕ}, i ≤ b.statements.length →
      (∀ j ≤ i, ¬ D (l, j)) → Avoids f.Moves f.entry D (l, i)
  | 0, _, _ => h
  | _ + 1, hi, hD =>
    (avoids_along hb h (Nat.le_of_succ_le hi) fun j hj => hD j (Nat.le_succ_of_le hj)).step
      (.statement hb hi) (hD _ (Nat.le_refl _))

/-- A path of blocks is a path of points. -/
theorem avoids_points {D : Label → Prop}
    (hav : Avoids (Dfs.Edge f.controlFlow.successors) f.start D l) :
    Avoids f.Moves f.entry (fun pt => D pt.1) (l, 0) := by
  induction hav with
  | root hne => exact .root hne
  | @step u v hu huv hne ih =>
    obtain ⟨b, hb, hmove⟩ := move_of_edge (edge_controlFlow.mp huv)
    exact (avoids_along hb ih (Nat.le_refl _) fun _ _ => hu.notMem).step hmove hne

theorem reachable_iff (hb : f.block? l = some b)
    (hi : i ≤ b.statements.length) : f.Reachable (l, i) ↔ f.Visited l := by
  constructor
  · intro hr
    have hlabel : ∀ {pt : Point}, f.Reachable pt → f.Visited pt.1 := by
      intro pt hpt
      induction hpt with
      | refl => exact .refl
      | tail _ hmove ih =>
        cases hmove with
        | statement => exact ih
        | transfer hb' hl' => exact ih.tail (edge_controlFlow.mpr (by rwa [succs_of_block? hb']))
    exact hlabel hr
  · intro hl
    have hav : Avoids (Dfs.Edge f.controlFlow.successors) f.start (fun _ => False) l :=
      avoids_of_not_reaches (fun _ hF => hF.elim) hl
    exact (avoids_along hb (avoids_points hav) hi fun _ _ hF => hF).reaches

/-- The points of a block where a variable of that block is not bound yet. -/
theorem Scoped.avoids_before (h : f.Scoped globals) (hb : f.block? l = some b)
    (hl : f.Visited l) (hx : f.Binds x (l, q.2)) (hi : i < q.2) (hle : i ≤ b.statements.length) :
    Avoids f.Moves f.entry (f.Defines globals x) (l, i) := by
  have honly : ∀ {pt}, f.Defines globals x pt → pt = (l, q.2) := fun hpt => h.unique hpt (.inl hx)
  obtain hav | ⟨w, rfl, hfirst⟩ := avoids_or_exists_first (· = l) hl
  · exact absurd rfl hav.notMem
  have hstart : Avoids f.Moves f.entry (f.Defines globals x) (w, 0) := by
    have hno : ¬ f.Defines globals x (w, 0) := fun hD => by
      have := congrArg Prod.snd (honly hD)
      simp only at this
      omega
    obtain rfl | ⟨u, hu, huw⟩ := hfirst
    · exact .root hno
    · obtain ⟨b', hb', hmove⟩ := move_of_edge (edge_controlFlow.mp huw)
      have hu' : Avoids f.Moves f.entry (f.Defines globals x) (u, 0) :=
        (avoids_points hu).of_forall fun pt hD hav => hav.notMem (congrArg Prod.fst (honly hD))
      refine (avoids_along hb' hu' (Nat.le_refl _) fun j _ hD => ?_).step hmove hno
      exact hu.notMem (congrArg Prod.fst (honly hD))
  refine avoids_along hb hstart hle fun j hj hD => ?_
  have := congrArg Prod.snd (honly hD)
  simp only at this
  omega

/-! ## Scopes and dominators -/

theorem Binds.index_le (h : f.Binds x (l, i)) (hb : f.block? l = some b) :
    i ≤ b.statements.length := by
  cases h with
  | formal => exact Nat.zero_le _
  | statement hb' hs _ =>
    obtain rfl := Option.some.inj (hb.symm.trans hb')
    exact (List.getElem?_eq_some_iff.mp hs).1

/-- A variable is in scope from its definition on, and in the blocks that its block dominates. -/
theorem Binds.inScope (hx : f.Binds x (d, i))
    (hl : d = l ∧ i ≤ pt.2 ∨ d ≠ l ∧ f.LabelDominates d l) (hpt : pt.1 = l) : f.InScope globals x pt := by
  have hnot : ∀ {pt : Point}, Avoids f.Moves f.entry (f.Defines globals x) pt →
      pt.1 = d ∧ pt.2 < i ∨ Avoids (Dfs.Edge f.controlFlow.successors) f.start (· = d) pt.1 := by
    intro pt hav
    induction hav with
    | root hD =>
      by_cases hd : f.start = d
      · refine .inl ⟨hd, Nat.pos_of_ne_zero fun hi => hD (.inl ?_)⟩
        rwa [entry, hd, ← hi]
      · exact .inr (.root hd)
    | @step u v hu huv hD ih =>
      cases huv with
      | @statement l' b' j hb' hj =>
        obtain ⟨hld, hji⟩ | hav := ih
        · refine .inl ⟨hld, Nat.lt_of_le_of_ne hji fun heq => hD (.inl ?_)⟩
          rwa [show l' = d from hld, show j + 1 = i from heq]
        · exact .inr hav
      | @transfer l' v' b' hb' hv' =>
        by_cases hd : v' = d
        · refine .inl ⟨hd, Nat.pos_of_ne_zero fun hi => hD (.inl ?_)⟩
          rwa [hd, ← hi]
        · obtain ⟨rfl, hlt⟩ | hav := ih
          · exact absurd hlt (Nat.not_lt_of_le (hx.index_le hb'))
          · exact .inr (hav.step (edge_controlFlow.mpr (by rwa [succs_of_block? hb'])) hd)
  intro hav
  obtain ⟨hd, hlt⟩ | hav := hnot hav
  · obtain ⟨-, hle⟩ | ⟨hne, -⟩ := hl
    · exact absurd hlt (Nat.not_lt_of_le hle)
    · exact hne (hd.symm.trans hpt)
  · obtain ⟨rfl, -⟩ | ⟨-, hdom⟩ := hl
    · exact hav.notMem hpt
    · exact hdom (hpt ▸ hav)

/-- **Scopes are dominance**: a variable in scope is given, bound earlier in the block, or bound in another
block that dominates this one. -/
theorem Scoped.inScope_iff (h : f.Scoped globals) (hl : f.Visited l) (hb : f.block? l = some b)
    (hi : i ≤ b.statements.length) :
    f.InScope globals x (l, i) ↔ f.Given globals x ∨
      ∃ d j, f.Binds x (d, j) ∧ (d = l ∧ j ≤ i ∨ d ≠ l ∧ f.LabelDominates d l) := by
  constructor
  · intro hx
    by_cases hdef : ∃ q, f.Binds x q
    · obtain ⟨⟨d, j⟩, hd⟩ := hdef
      refine .inr ⟨d, j, hd, ?_⟩
      by_cases hdl : d = l
      · subst hdl
        refine .inl ⟨rfl, Nat.le_of_not_lt fun hij => hx ?_⟩
        exact h.avoids_before (q := (d, j)) hb hl hd hij hi
      · refine .inr ⟨hdl, fun hav => hx ?_⟩
        have honly : ∀ {pt}, f.Defines globals x pt → pt.1 = d := fun hpt =>
          congrArg Prod.fst (h.unique hpt (.inl hd))
        have hav' : Avoids f.Moves f.entry (f.Defines globals x) (l, 0) :=
          (avoids_points hav).of_forall fun pt hD hp => hp.notMem (honly hD)
        exact avoids_along hb hav' hi fun k _ hD => hav.notMem (honly hD)
    · refine .inl (by_contra fun hgiven => hx ?_)
      refine avoids_of_not_reaches (fun pt hD => ?_) ((reachable_iff hb hi).mpr hl)
      exact absurd hD (by rintro (hbinds | ⟨hg, -⟩); exacts [hdef ⟨_, hbinds⟩, hgiven hg])
  · rintro (hgiven | ⟨d, j, hd, hcase⟩)
    · exact hgiven.inScope
    · exact hd.inScope hcase rfl

/-- **A variable is not bound again while what is computed from it is in scope.** -/
theorem Scoped.not_inScope_of_uses (h : f.Scoped globals) (hreach : f.Reachable pt)
    (hz : f.Binds z pt) (hxq : f.Binds x q) (hne : q ≠ pt)
    (huse : ∀ {p}, f.Moves p q → f.InScope globals z p) : ¬ f.InScope globals x pt := by
  intro hx
  have honly : ∀ {p}, f.Defines globals x p → p = q := fun hp => h.unique hp (.inl hxq)
  have honlyz : ∀ {p}, f.Defines globals z p → p = pt := fun hp => h.unique hp (.inl hz)
  obtain hav | ⟨w, hw, hfirst⟩ := avoids_or_exists_first (fun p => p = pt ∨ p = q) hreach
  · exact hav.notMem (.inl rfl)
  have hentry : w ≠ f.entry := by
    rintro rfl
    obtain rfl | rfl := hw
    · exact h.not_binds_entry hz
    · exact h.not_binds_entry hxq
  obtain ⟨u, hu, huw⟩ := hfirst.resolve_left hentry
  obtain rfl | rfl := hw
  · have hux : Avoids f.Moves f.entry (f.Defines globals x) u :=
      hu.of_forall fun p hD hp => hp.notMem (.inr (honly hD))
    exact hx (hux.step huw fun hD => hne (honly hD).symm)
  · exact huse huw (hu.of_forall fun p hD hp => hp.notMem (.inl (honlyz hD)))

end Scopes

end Function

end MLton.Ssa
