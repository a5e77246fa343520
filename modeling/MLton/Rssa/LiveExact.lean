import MLton.Rssa.LiveCollect

/-!
# Rssa/LiveExact — what is computed is what is live

A variable spreads to a node exactly when it is live there and the node is not the one that defines it
(`liveAt_of_spreads`, `spreads_or_eq`).  The variables are taken one after the other, so each spreads
through buffers that do not end with it, and gets into each buffer once (`exists_processVar`).
-/

namespace MLton.Rssa.Live

open Worklist Relation

variable {f : Function} {shouldConsider : Var → Bool} {info : Info} {x y : Var}
  {b b' d : LiveInfo} {B B' : Block} {l l' h : Label} {pt q : Point} {i n : ℕ} {defined : Option LiveInfo}

/-! ## Spreading is being live -/

/-- The variable is live where the node starts. -/
def LiveNode (f : Function) (x : Var) : LiveInfo → Prop
  | .head => False
  | .arg l => f.LiveAt x (l, 0)
  | .body l => f.LiveAt x (l, 1)

/-- Back through statements that do not define the variable. -/
theorem liveAt_back (hB : f.block? l = some B) (hbind : ∀ i, ¬ f.Binds x (l, i + 2)) :
    ∀ {i : ℕ}, i ≤ B.statements.length → f.LiveAt x (l, i + 1) → f.LiveAt x (l, 1)
  | 0, _, h => h
  | i + 1, hi, h => liveAt_back hB hbind (Nat.le_of_succ_le hi) (.move (.statement hB hi) (hbind i) h)

theorem not_binds_arg (hB : f.block? l = some B) (hargs : B.args.isEmpty = true) : ¬ f.Binds x (l, 1) := by
  rintro ⟨hB', hx⟩
  obtain rfl := Option.some.inj (hB.symm.trans hB')
  rw [List.isEmpty_iff.mp hargs] at hx
  cases hx

theorem LiveNode.liveAt_zero (hB : f.block? l = some B) (h : LiveNode f x B.argInfo) : f.LiveAt x (l, 0) := by
  obtain rfl := Function.block?_label hB
  unfold Block.argInfo at h
  split at h
  · next hargs => exact .move (.formals hB) (not_binds_arg hB hargs) h
  · exact h

/-- **What a variable spreads to is where it is live**, if nodes that define it are blocked. -/
theorem liveNode_of_spreads {preds : LiveInfo → List LiveInfo} {used : List LiveInfo} {blocked : LiveInfo → Bool}
    (hpreds : ∀ {b d}, b ∈ preds d → Edge f b d)
    (hused : ∀ {d}, d ∈ used → ∃ l i, f.Uses x (l, i + 1) ∧ d = .body l)
    (hblocked : ∀ {pt}, f.Binds x pt → blocked (defNode pt) = true)
    (h : Spreads preds blocked used b) : LiveNode f x b := by
  have hbody : ∀ {l}, blocked (.body l) = false → ∀ i, ¬ f.Binds x (l, i + 2) := fun hb i hbind =>
    Bool.false_ne_true (hb.symm.trans (hblocked hbind))
  induction h with
  | seed hb hbl =>
    obtain ⟨l, i, huse, rfl⟩ := hused hb
    have hlive := Function.LiveAt.use huse
    cases huse with
    | statement hB hs => exact liveAt_back hB (hbody hbl) (Nat.le_of_lt (List.getElem?_eq_some_iff.mp hs).1) hlive
    | transfer hB => exact liveAt_back hB (hbody hbl) (Nat.le_refl _) hlive
  | next _ hb hbl ih =>
    cases hpreds hb with
    | formals hB => exact .move (.formals hB) (fun hbind => Bool.false_ne_true (hbl.symm.trans (hblocked hbind))) ih
    | handler hB hkind hB' => exact .handler hB hkind (ih.liveAt_zero hB')
    | transfer hB hl hB' =>
      exact liveAt_back hB (hbody hbl) (Nat.le_refl _)
        (.move (.transfer hB hl) Function.not_binds_zero (ih.liveAt_zero hB'))

/-- The node of a point. -/
def nodeAt (f : Function) : Point → LiveInfo
  | (l, 0) => ((f.block? l).map Block.argInfo).getD (.arg l)
  | (l, _ + 1) => .body l

theorem nodeAt_zero (hB : f.block? l = some B) : nodeAt f (l, 0) = B.argInfo := by
  simp [nodeAt, hB]

theorem binds_of_defNode_body (hdef : f.Defines x q) (hq : defNode q = .body l) : ∃ i, f.Binds x (l, i + 2) := by
  obtain ⟨l', i⟩ := q
  match i, hq with
  | i + 2, hq =>
    obtain rfl := LiveInfo.body.inj hq
    exact ⟨i, hdef.resolve_right fun h => by cases h.2⟩

theorem binds_of_defNode_arg (hdef : f.Defines x q) (hq : defNode q = .arg l) : f.Binds x (l, 1) := by
  obtain ⟨l', i⟩ := q
  match i, hq with
  | 1, hq =>
    obtain rfl := LiveInfo.arg.inj hq
    exact hdef.resolve_right fun h => by cases h.2

section Complete

variable (hf : f.Ssa) (hdef : f.Defines x q)

include hf hdef

theorem body_ne_defNode (hreach : f.Reachable (l, 1)) (hx : f.LiveAt x (l, 1)) : .body l ≠ defNode q := fun h =>
  let ⟨_, hbind⟩ := binds_of_defNode_body hdef h.symm
  hx.not_binds hf hreach hbind

theorem argInfo_ne_defNode (hB : f.block? l = some B) (hreach : f.Reachable (l, 0)) (hx : f.LiveAt x (l, 0)) :
    B.argInfo ≠ defNode q := by
  obtain rfl := Function.block?_label hB
  obtain ⟨hlive, hbind⟩ := hx.formals
  unfold Block.argInfo
  split
  · exact body_ne_defNode hf hdef (hreach.tail (.formals hB)) hlive
  · exact fun h => hbind (binds_of_defNode_arg hdef h.symm)

/-- **A variable spreads to where it is live**, up to the node that defines it. -/
theorem spreads_or_eq {preds : LiveInfo → List LiveInfo} {used : List LiveInfo}
    (hpreds : ∀ {b d}, Edge f b d → b ∈ preds d)
    (hused : ∀ {l i}, f.Uses x (l, i + 1) → .body l ∈ used)
    (hx : f.LiveAt x pt) (hreach : f.Reachable pt) :
    Spreads preds (· = defNode q) used (nodeAt f pt) ∨ nodeAt f pt = defNode q := by
  have hedge : ∀ {b d}, Spreads preds (· = defNode q) used d → Edge f b d →
      Spreads preds (· = defNode q) used b ∨ b = defNode q := by
    intro b d hd hedge
    by_cases heq : b = defNode q
    · exact .inr heq
    · exact .inl (.next hd (hpreds hedge) (decide_eq_false heq))
  induction hx with
  | use huse =>
    have hbody : ∀ {l i}, f.Uses x (l, i + 1) →
        Spreads preds (· = defNode q) used (.body l) ∨ .body l = defNode q := by
      intro l i huse
      by_cases heq : .body l = defNode q
      · exact .inr heq
      · exact .inl (.seed (hused huse) (decide_eq_false heq))
    cases huse with
    | statement hB hs hx => exact hbody (.statement hB hs hx)
    | transfer hB hx => exact hbody (.transfer hB hx)
  | move hmove hbind hlive ih =>
    have hreach' := hreach.tail hmove
    have ih := ih hreach'
    cases hmove with
    | @formals l B hB =>
      have ih := ih.resolve_right (body_ne_defNode hf hdef hreach' hlive)
      rw [nodeAt_zero hB]
      obtain rfl := Function.block?_label hB
      unfold Block.argInfo
      split
      · exact .inl ih
      · next hargs => exact hedge ih (.formals hB (by simpa using hargs))
    | statement => exact ih
    | @transfer l l' B hB hl =>
      obtain ⟨B', hB'⟩ := Option.isSome_iff_exists.mp
        (hf.targets B (Function.block?_mem hB) l' (List.mem_append_right _ hl))
      rw [nodeAt_zero hB'] at ih
      have ih := ih.resolve_right (argInfo_ne_defNode hf hdef hB' hreach' hlive)
      by_cases hkind : B'.kind = .handler
      · -- the call goes to the handler by way of the continuation
        obtain ⟨c, hc, hck⟩ := (hf.kinds B (Function.block?_mem hB)).exists_cont hl (by
          rw [hB', Option.map_some, hkind])
        obtain ⟨C, hC, hCk⟩ := Option.map_eq_some_iff.mp hck
        have hreachc := hreach.tail (.transfer hB hc)
        have hnot : ∀ k, ¬ f.Binds x (c, k) := fun k => hlive.not_binds_cont hf hC hCk hreachc
        have hbody := (hedge ih (.handler hC hCk hB')).resolve_right fun h =>
          let ⟨_, hb⟩ := binds_of_defNode_body hdef h.symm
          hnot _ hb
        have harg : Spreads preds (· = defNode q) used C.argInfo := by
          obtain rfl := Function.block?_label hC
          unfold Block.argInfo
          split
          · exact hbody
          · next hargs =>
            exact (hedge hbody (.formals hC (by simpa using hargs))).resolve_right fun h =>
              hnot _ (binds_of_defNode_arg hdef h.symm)
        refine hedge harg (.transfer hB hc hC ?_)
        rw [hCk]
        exact Kind.noConfusion
      · exact hedge ih (.transfer hB hl hB' hkind)
  | @handler l h B hB hkind hlive ih =>
    obtain ⟨B', hB'⟩ := Option.isSome_iff_exists.mp
      (hf.targets B (Function.block?_mem hB) h (List.mem_append_left _ (mem_kind_labels.mpr hkind)))
    have hreach' := hf.reachable_handler hB hkind hreach
    have ih := ih hreach'
    rw [nodeAt_zero hB'] at ih
    exact hedge (ih.resolve_right (argInfo_ne_defNode hf hdef hB' hreach' hlive)) (.handler hB hkind hB')

end Complete

/-! ## One variable after the other -/

theorem foldl_mark : ∀ {bs : List LiveInfo} {live : Buffers}, bs.Nodup →
    bs.foldl (fun live b => Function.update live b (live b ++ [x])) live b =
      if b ∈ bs then live b ++ [x] else live b
  | [], _, _ => by simp
  | c :: bs, live, hbs => by
      obtain ⟨hc, hbs⟩ := List.nodup_cons.mp hbs
      rw [List.foldl_cons, foldl_mark hbs]
      by_cases hb : b = c
      · subst hb
        simp [hc]
      · simp [hb]

/-- **One variable** gets into the buffers of the nodes it spreads to. -/
theorem exists_processVar {live : Buffers} {U : List LiveInfo} (hx : shouldConsider x = true) (hd : info.defined x = some d)
    (hlive : ∀ b, x ∉ live b) (hpreds : ∀ u ∈ U, info.preds u ⊆ U) (hused : info.used x ⊆ U) (hn : U.length ≤ n) :
    ∃ live', processVar shouldConsider info n live x = some live' ∧ ∀ b,
      live' b = live b ++ [x] ∧ Spreads info.preds (· = d) (info.used x) b ∨
      live' b = live b ∧ ¬ Spreads info.preds (· = d) (info.used x) b := by
  have hmark : ∀ (live : Buffers) v w,
      decide ((Function.update live v (live v ++ [x]) w).getLast? = some x) = true ↔
        w = v ∨ decide ((live w).getLast? = some x) = true := by
    intro live v w
    by_cases hw : w = v
    · subst hw
      simp
    · simp [hw]
  have hfresh : ∀ b, decide ((live b).getLast? = some x) = false := fun b =>
    decide_eq_false fun h => hlive b (List.mem_of_getLast? h)
  obtain ⟨bs, hloop, hbs, hmem⟩ := exists_loop info.preds (· = d)
    (fun (live : Buffers) b => decide ((live b).getLast? = some x))
    (fun live b => Function.update live b (live b ++ [x])) hmark hfresh hpreds hused hn
  refine ⟨_, (if_pos hx).trans (by rw [hd]; exact hloop), fun b => ?_⟩
  rw [← hmem b, foldl_mark hbs]
  by_cases hb : b ∈ bs
  · exact .inl ⟨if_pos hb, hb⟩
  · exact .inr ⟨if_neg hb, hb⟩

/-- **All variables**: a buffer has those that spread to it, each of them once. -/
theorem exists_foldlM_processVar {U : List LiveInfo} (hpreds : ∀ u ∈ U, info.preds u ⊆ U)
    (hused : ∀ x, shouldConsider x = true → info.used x ⊆ U) (hn : U.length ≤ n) : ∀ {xs : List Var} {live : Buffers}, xs.Nodup →
    (∀ x ∈ xs, shouldConsider x = true ∧ ∃ d, info.defined x = some d) → (∀ x ∈ xs, ∀ b, x ∉ live b) →
    (∀ b, (live b).Nodup) →
    ∃ live', xs.foldlM (processVar shouldConsider info n) live = some live' ∧ ∀ b, (live' b).Nodup ∧
      ∀ x, x ∈ live' b ↔ x ∈ live b ∨ x ∈ xs ∧ ∀ d, info.defined x = some d →
        Spreads info.preds (· = d) (info.used x) b
  | [], live, _, _, _, hnodup => ⟨live, rfl, fun b => ⟨hnodup b, by simp⟩⟩
  | x :: xs, live, hxs, hdef, hlive, hnodup => by
      obtain ⟨hxxs, hxs⟩ := List.nodup_cons.mp hxs
      obtain ⟨hx, d, hd⟩ := hdef x List.mem_cons_self
      obtain ⟨live₁, hstep, hbuf⟩ := exists_processVar hx hd (hlive x List.mem_cons_self) hpreds (hused x hx) hn
      have hmem : ∀ b y, y ∈ live₁ b ↔ y ∈ live b ∨ y = x ∧ Spreads info.preds (· = d) (info.used x) b := by
        intro b y
        obtain ⟨hb, hs⟩ | ⟨hb, hs⟩ := hbuf b
        · simp [hb, hs]
        · simp [hb, hs]
      have hnodup₁ : ∀ b, (live₁ b).Nodup := by
        intro b
        obtain ⟨hb, -⟩ | ⟨hb, -⟩ := hbuf b
        · rw [hb]
          exact List.nodup_append.mpr ⟨hnodup b, List.nodup_singleton x, fun y hy z hz heq =>
            hlive x List.mem_cons_self b (List.mem_singleton.mp hz ▸ heq ▸ hy)⟩
        · rw [hb]
          exact hnodup b
      obtain ⟨live', hrest, hall⟩ := exists_foldlM_processVar hpreds hused hn hxs
        (fun y hy => hdef y (List.mem_cons_of_mem _ hy))
        (fun y hy b hyb => ((hmem b y).mp hyb).elim (hlive y (List.mem_cons_of_mem _ hy) b)
          fun h => hxxs (h.1 ▸ hy)) hnodup₁
      refine ⟨live', by rw [List.foldlM_cons, hstep]; exact hrest, fun b => ⟨(hall b).1, fun y => ?_⟩⟩
      rw [(hall b).2, hmem, List.mem_cons]
      constructor
      · rintro ((hy | ⟨rfl, hs⟩) | ⟨hy, hs⟩)
        · exact .inl hy
        · exact .inr ⟨.inl rfl, fun d' hd' => Option.some.inj (hd.symm.trans hd') ▸ hs⟩
        · exact .inr ⟨.inr hy, hs⟩
      · rintro (hy | ⟨rfl | hy, hs⟩)
        · exact .inl (.inl hy)
        · exact .inl (.inr ⟨rfl, hs d hd⟩)
        · exact .inr ⟨hy, hs⟩

/-! ## Handlers -/

theorem handlerStart_todo {α : Type} : ∀ (defuse : List (DefUse α)),
    (handlerStart defuse).2.2.length ≤ defuse.length ∧
      ∀ p ∈ (handlerStart defuse).2.2, .use p.1 p.2 ∈ defuse
  | [] => ⟨Nat.le_refl _, fun _ hp => absurd hp List.not_mem_nil⟩
  | .define b :: defuse => by
      obtain ⟨hlen, hmem⟩ := handlerStart_todo defuse
      exact ⟨Nat.le_succ_of_le hlen, fun p hp => List.mem_cons_of_mem _ (hmem p hp)⟩
  | .use a b :: defuse => by
      obtain ⟨hlen, hmem⟩ := handlerStart_todo defuse
      have hstep : (handlerStart (.use a b :: defuse)).2.2 =
          if (handlerStart defuse).1.head? = some b then (handlerStart defuse).2.2
          else (a, b) :: (handlerStart defuse).2.2 := by
        rw [handlerStart, List.foldr_cons, ← handlerStart]
        obtain ⟨defs, live, todo⟩ := handlerStart defuse
        dsimp only
        split
        · rfl
        · rfl
      rw [hstep]
      split
      · exact ⟨Nat.le_succ_of_le hlen, fun p hp => List.mem_cons_of_mem _ (hmem p hp)⟩
      · refine ⟨Nat.succ_le_succ hlen, fun p hp => ?_⟩
        obtain rfl | hp := List.mem_cons.mp hp
        · exact List.mem_cons_self
        · exact List.mem_cons_of_mem _ (hmem p hp)

/-- The code and the link of handlers are found. -/
theorem exists_handlerLink {α : Type} {preds : LiveInfo → List LiveInfo} {U : List LiveInfo}
    (defuse : List (DefUse α)) (hpreds : ∀ u ∈ U, preds u ⊆ U) (hdefuse : ∀ a b, .use a b ∈ defuse → b ∈ U) :
    ∃ r, handlerLink preds U.length defuse = some r := by
  obtain ⟨hlen, hmem⟩ := handlerStart_todo defuse
  refine exists_loop_of_lt (P := fun p : α × LiveInfo => p.2 ∈ U)
    (m := fun live : LiveInfo → Option α => (U.filter fun b => (live b).isNone).length) ?_ ?_
    (fun p hp => hdefuse _ _ (hmem p hp)) ?_
  · intro live p hp hfree
    have hsub : (U.filter fun b => (Function.update live p.2 (some p.1) b).isNone) =
        (U.filter fun b => (live b).isNone).filter (· ≠ p.2) := by
      rw [List.filter_filter]
      refine List.filter_congr fun b _ => ?_
      by_cases hb : b = p.2
      · subst hb
        simp
      · simp [hb]
    rw [hsub, List.length_filter_lt_length_iff_exists]
    exact ⟨p.2, List.mem_filter.mpr ⟨hp, by simpa using hfree⟩, by simp⟩
  · intro p hp p' hp'
    obtain ⟨b, hb, rfl⟩ := List.mem_map.mp hp'
    exact hpreds _ hp hb
  · exact Nat.add_le_add (List.length_filter_le ..) hlen

/-! ## Exactness -/

/-- The variable is considered, the function defines it, and it is live at the point. -/
def LiveHere (f : Function) (shouldConsider : Var → Bool) (x : Var) (pt : Point) : Prop :=
  shouldConsider x = true ∧ (∃ q, f.Defines x q) ∧ f.LiveAt x pt

/-- **The buffers** have the variables that spread to their nodes. -/
theorem exists_live (hf : f.Ssa) (shouldConsider : Var → Bool) :
    ∃ (buffers : Buffers) (handler : LiveInfo → Option Label) (link : LiveInfo → Option Unit),
      live f shouldConsider = some (fun l => (f.block? l).map fun B =>
        { begin := buffers B.bodyInfo, beginNoFormals := buffers B.argInfo, handler := handler B.bodyInfo,
          link := (link B.bodyInfo).isSome }) ∧
      ∀ b, (buffers b).Nodup ∧ ∀ x, x ∈ buffers b ↔ shouldConsider x = true ∧ ∃ q, f.Defines x q ∧
        Spreads (collect f shouldConsider).preds (· = defNode q) ((collect f shouldConsider).used x) b := by
  have hpreds : ∀ u ∈ nodes f, (collect f shouldConsider).preds u ⊆ nodes f := fun u _ b hb =>
    ((mem_preds hf).mp hb).mem_nodes
  have hused : ∀ x, shouldConsider x = true → (collect f shouldConsider).used x ⊆ nodes f := by
    intro x hx d hd
    obtain ⟨l, i, huse, rfl⟩ := (mem_used hf hx).mp hd
    exact uses_mem_nodes huse
  obtain ⟨buffers, hfold, hbuf⟩ := exists_foldlM_processVar hpreds hused (Nat.le_refl _) (nodup_allVars hf)
    (fun x hx => by
      obtain ⟨hcons, q, hq⟩ := (mem_allVars hf).mp hx
      exact ⟨hcons, _, defined_eq hf hcons hq⟩)
    (fun _ _ (b : LiveInfo) => (List.not_mem_nil : _ ∉ (fun _ => [] : Buffers) b)) (fun _ => List.nodup_nil)
  obtain ⟨code, hcode⟩ := exists_handlerLink (collect f shouldConsider).handlerCode hpreds
    fun a b h => handler_mem_nodes ((foldl_handlerCode h).resolve_left List.not_mem_nil) (.inl ⟨a, rfl⟩)
  obtain ⟨link, hlink⟩ := exists_handlerLink (collect f shouldConsider).handlerLink hpreds
    fun a b h => handler_mem_nodes ((foldl_handlerLink h).resolve_left List.not_mem_nil) (.inr rfl)
  have hall : f.blocks.all fun B => (B.kind.labels ++ B.transfer.labels).all fun l => (f.block? l).isSome :=
    List.all_eq_true.mpr fun B hB => List.all_eq_true.mpr (hf.targets B hB)
  refine ⟨buffers, code, link, ?_, fun b => ⟨(hbuf b).1, fun x => ?_⟩⟩
  · rw [live, if_pos hall]
    simp only [hfold, hcode, hlink, Option.bind_eq_bind, Option.bind_some, Option.pure_def]
  · rw [(hbuf b).2, mem_allVars hf]
    constructor
    · rintro (h | ⟨⟨hcons, q, hq⟩, h⟩)
      · cases h
      · exact ⟨hcons, q, hq, h _ (defined_eq hf hcons hq)⟩
    · rintro ⟨hcons, q, hq, h⟩
      refine .inr ⟨⟨hcons, q, hq⟩, fun d hd => ?_⟩
      obtain rfl := Option.some.inj ((defined_eq hf hcons hq).symm.trans hd)
      exact h

/-- **Liveness is exact**: of the variables that are considered and that the function defines, each block gets
only those that are live in front of its formals, and behind them, each once; and if control can get to the
block, it gets all of them. -/
theorem live_exact (hf : f.Ssa) (shouldConsider : Var → Bool) :
    ∃ labelLive, live f shouldConsider = some labelLive ∧ ∀ l B, f.block? l = some B → ∃ r, labelLive l = some r ∧
      r.beginNoFormals.Nodup ∧ r.begin.Nodup ∧
      (∀ x, (x ∈ r.beginNoFormals → LiveHere f shouldConsider x (l, 0)) ∧
        (x ∈ r.begin → LiveHere f shouldConsider x (l, 1))) ∧
      (f.Reachable (l, 0) → ∀ x, (LiveHere f shouldConsider x (l, 0) → x ∈ r.beginNoFormals) ∧
        (LiveHere f shouldConsider x (l, 1) → x ∈ r.begin)) := by
  obtain ⟨buffers, handler, link, hlive, hbuf⟩ := exists_live hf shouldConsider
  have hsound : ∀ b x, x ∈ buffers b → shouldConsider x = true ∧ (∃ q, f.Defines x q) ∧ LiveNode f x b := by
    intro b x hx
    obtain ⟨hcons, q, hq, h⟩ := ((hbuf b).2 x).mp hx
    refine ⟨hcons, ⟨q, hq⟩, liveNode_of_spreads (mem_preds hf).mp (mem_used hf hcons).mp (fun hbind => ?_) h⟩
    exact decide_eq_true (hf.unique (.inl hbind) hq ▸ rfl)
  have hcomplete : ∀ pt x, f.Reachable pt → LiveHere f shouldConsider x pt →
      x ∈ buffers (nodeAt f pt) ∨ ∃ q, f.Defines x q ∧ nodeAt f pt = defNode q := by
    rintro pt x hreach ⟨hcons, ⟨q, hq⟩, hx⟩
    obtain h | h := spreads_or_eq hf hq (mem_preds hf).mpr
      (fun huse => (mem_used hf hcons).mpr ⟨_, _, huse, rfl⟩) hx hreach
    · exact .inl (((hbuf _).2 x).mpr ⟨hcons, q, hq, h⟩)
    · exact .inr ⟨q, hq, h⟩
  refine ⟨_, hlive, fun l B hB => ⟨_, (congrArg (Option.map _) hB).trans (Option.map_some ..), (hbuf _).1,
    (hbuf _).1, fun x => ⟨fun hx => ?_, fun hx => ?_⟩, fun hreach x => ⟨fun hx => ?_, fun hx => ?_⟩⟩⟩
  · obtain ⟨hcons, hdef, hlive⟩ := hsound _ x hx
    exact ⟨hcons, hdef, hlive.liveAt_zero hB⟩
  · obtain ⟨hcons, hdef, hlive⟩ := hsound _ x hx
    obtain rfl := Function.block?_label hB
    exact ⟨hcons, hdef, hlive⟩
  · obtain h | ⟨q, hq, h⟩ := hcomplete _ x hreach hx
    · rwa [nodeAt_zero hB] at h
    · rw [nodeAt_zero hB] at h
      exact absurd h (argInfo_ne_defNode hf hq hB hreach hx.2.2)
  · have hreach := hreach.tail (.formals hB)
    obtain h | ⟨q, hq, h⟩ := hcomplete _ x hreach hx
    · obtain rfl := Function.block?_label hB
      exact h
    · exact absurd h (body_ne_defNode hf hq hreach hx.2.2)

/-! ## What is not in the buffers -/

/-- Reads a variable that it defines and one that it does not; and control does not get to a block that reads
a variable before it defines it. -/
def reader : Function where
  args := []
  blocks :=
    [⟨[], .jump, ⟨0⟩, [.bind (⟨1⟩, .mk .bits 32) false (.const .null)], .goto [] ⟨1⟩⟩,
      ⟨[], .jump, ⟨1⟩, [], .ret [.var ⟨0⟩ (.mk .bits 32), .var ⟨1⟩ (.mk .bits 32)]⟩,
      ⟨[], .jump, ⟨2⟩, [.bind (⟨3⟩, .mk .bits 32) false (.var ⟨2⟩ (.mk .bits 32)),
        .bind (⟨2⟩, .mk .bits 32) false (.const .null)], .ret []⟩]
  name := ⟨0⟩
  raises := none
  returns := some []
  start := ⟨0⟩

theorem reader_block? (hB : reader.block? l = some B) :
    l = ⟨0⟩ ∧ some B = reader.blocks[0]? ∨ l = ⟨1⟩ ∧ some B = reader.blocks[1]? ∨
      l = ⟨2⟩ ∧ some B = reader.blocks[2]? := by
  obtain rfl := Function.block?_label hB
  have hmem := Function.block?_mem hB
  simp only [reader, List.mem_cons, List.not_mem_nil, or_false] at hmem
  obtain rfl | rfl | rfl := hmem
  · exact .inl ⟨rfl, rfl⟩
  · exact .inr (.inl ⟨rfl, rfl⟩)
  · exact .inr (.inr ⟨rfl, rfl⟩)

theorem reader_reachable (h : reader.Reachable pt) : pt.1 ≠ ⟨2⟩ := by
  induction h with
  | refl => decide
  | tail _ hmove ih =>
    cases hmove with
    | formals => exact ih
    | statement => exact ih
    | transfer hB hl =>
      obtain ⟨rfl, heq⟩ | ⟨rfl, heq⟩ | ⟨rfl, -⟩ := reader_block? hB
      · obtain rfl := Option.some.inj heq
        obtain rfl := List.mem_singleton.mp hl
        decide
      · obtain rfl := Option.some.inj heq
        cases hl
      · exact absurd rfl ih

/-- What avoids the definition in the first block does not leave it. -/
theorem reader_avoids {D : Point → Prop} (hD : D (⟨0⟩, 2)) (h : Dominance.Avoids reader.Moves reader.entry D pt) :
    pt = (⟨0⟩, 0) ∨ pt = (⟨0⟩, 1) := by
  induction h with
  | root => exact .inl rfl
  | step _ hmove hne ih =>
    obtain rfl | rfl := ih
    · generalize hq : ((⟨0⟩, 0) : Point) = q at hmove
      cases hmove with
      | formals =>
        obtain ⟨rfl, -⟩ := Prod.mk.inj hq
        exact .inr rfl
      | statement => cases hq
      | transfer => cases hq
    · generalize hq : ((⟨0⟩, 1) : Point) = q at hmove
      cases hmove with
      | formals => cases hq
      | statement =>
        cases hq
        exact absurd hD hne
      | transfer hB =>
        obtain ⟨rfl, hlen⟩ := Prod.mk.inj hq
        obtain ⟨-, heq⟩ | ⟨h, -⟩ | ⟨h, -⟩ := reader_block? hB
        · obtain rfl := Option.some.inj heq
          cases hlen
        · cases h
        · cases h

theorem reader_uses (h : reader.Uses x pt) :
    pt = (⟨1⟩, 1) ∧ (x = ⟨0⟩ ∨ x = ⟨1⟩) ∨ pt.1 = ⟨2⟩ := by
  cases h with
  | @statement l B i s hB hs hx =>
    obtain ⟨rfl, heq⟩ | ⟨rfl, heq⟩ | ⟨rfl, -⟩ := reader_block? hB
    · obtain rfl := Option.some.inj heq
      obtain rfl := List.mem_singleton.mp (List.mem_of_getElem? hs)
      cases hx
    · obtain rfl := Option.some.inj heq
      cases hs
    · exact .inr rfl
  | transfer hB hx =>
    obtain ⟨rfl, heq⟩ | ⟨rfl, heq⟩ | ⟨rfl, -⟩ := reader_block? hB
    · obtain rfl := Option.some.inj heq
      cases hx
    · obtain rfl := Option.some.inj heq
      refine .inl ⟨rfl, ?_⟩
      simpa [Transfer.uses, Operand.vars] using hx
    · exact .inr rfl

theorem reader_ssa : reader.Ssa where
  labels := by decide
  once := by decide
  dominates := by
    intro x pt q huse hdef hav
    obtain ⟨rfl, rfl | rfl⟩ | h := reader_uses huse
    · have hmem : (⟨0⟩ : Var) ∈ reader.definitions.map Prod.fst := List.mem_map_of_mem (f := Prod.fst) hdef.mem
      exact absurd hmem (by decide)
    · have hD : reader.Defines ⟨1⟩ (⟨0⟩, 2) := .inl (.statement rfl rfl (List.mem_singleton_self _))
      obtain h | h := reader_avoids hD hav
      · cases h
      · cases h
    · exact reader_reachable hav.reaches h
  start := rfl
  targets := by decide
  kinds := by
    intro B hB
    simp only [reader, List.mem_cons, List.not_mem_nil, or_false] at hB
    obtain rfl | rfl | rfl := hB
    · exact .goto rfl
    · exact .ret
    · exact .ret

theorem live_exact_reader : ∃ labelLive r, live reader (fun _ => true) = some labelLive ∧
    labelLive ⟨1⟩ = some r ∧ r.beginNoFormals.Nodup ∧ ⟨1⟩ ∈ r.beginNoFormals := by
  obtain ⟨labelLive, hlive, hblock⟩ := live_exact reader_ssa fun _ => true
  obtain ⟨r, hr, hnodup, -, -, hall⟩ := hblock ⟨1⟩ _ rfl
  refine ⟨labelLive, r, hlive, hr, hnodup, (hall ?_ ⟨1⟩).1 ⟨rfl, ⟨(⟨0⟩, 2), ?_⟩, ?_⟩⟩
  · exact ((Relation.ReflTransGen.single (.formals rfl)).tail (.statement (b := reader.blocks[0]) rfl (by decide))).tail
      (.transfer (b := reader.blocks[0]) rfl (List.mem_singleton_self _))
  · exact .inl (.statement rfl rfl (List.mem_singleton_self _))
  · refine .move (.formals rfl) (not_binds_arg rfl rfl) (.use (.transfer (b := reader.blocks[1]) rfl ?_))
    decide

/-- A variable that is used in front of its definition is live and is not reported: where the function does
not define it, and where control does not get to. -/
theorem reader_not_exact : reader.Ssa ∧
    (reader.LiveAt ⟨0⟩ (⟨1⟩, 0) ∧
      ((live reader fun _ => true).bind (· ⟨1⟩)).map LabelLive.beginNoFormals = some [⟨1⟩]) ∧
    reader.LiveAt ⟨2⟩ (⟨2⟩, 1) ∧ ((live reader fun _ => true).bind (· ⟨2⟩)).map LabelLive.begin = some [] := by
  refine ⟨reader_ssa, ⟨?_, by decide⟩, ?_, by decide⟩
  · refine .move (.formals rfl) (not_binds_arg rfl rfl) (.use (.transfer (b := reader.blocks[1]) rfl ?_))
    decide
  · exact .use (.statement rfl rfl (List.mem_singleton_self _))

end MLton.Rssa.Live
