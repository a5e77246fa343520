import MLton.Ssa.Profile

/-!
# Ssa/ProfileMarked — what profiling makes of a function

A block with its marks is one of three things, and the blocks made for it have names of their own (`Marked`).
Every block of the marked function is one or the other (`exists_profiled`), and every function whose labels
have blocks can be marked (`exists_profile`).
-/

namespace MLton.Ssa

namespace Profile

open DirectExp (Gen State newVar newName push)

variable {f f' : Function} {si : ℕ} {b b' c : Block} {l : Label} {s s' : State}

/-! ## What is made -/

theorem bind_eq_some {α β : Type} {m : Gen α} {g : α → Gen β} {r : β} {s s'' : State} :
    (m >>= g) s = some (r, s'') ↔ ∃ a s', m s = some (a, s') ∧ g a s' = some (r, s'') := by
  change ((m s).bind fun p => g p.1 p.2) = some (r, s'') ↔ _
  rw [Option.bind_eq_some_iff, Prod.exists]

/-- Names are used up, and blocks with names of their own are made. -/
structure Makes (s s' : State) (ext : List Block) : Prop where
  blocks : s'.blocks = ext ++ s.blocks
  le : s.supply ≤ s'.supply
  nodup : (ext.map Block.label).Nodup
  mem : ∀ c ∈ ext, s.supply ≤ c.label.id ∧ c.label.id < s'.supply

theorem Makes.refl : Makes s s [] := ⟨rfl, Nat.le_refl _, List.nodup_nil, by simp⟩

theorem Makes.trans {s'' : State} {ext ext' : List Block} (h : Makes s s' ext) (h' : Makes s' s'' ext') :
    Makes s s'' (ext' ++ ext) where
  blocks := by rw [h'.blocks, h.blocks, List.append_assoc]
  le := Nat.le_trans h.le h'.le
  nodup := by
    rw [List.map_append]
    refine List.nodup_append.mpr ⟨h'.nodup, h.nodup, fun l hl l' hl' heq => ?_⟩
    obtain ⟨c, hc, rfl⟩ := List.mem_map.mp hl
    obtain ⟨c', hc', rfl⟩ := List.mem_map.mp hl'
    exact absurd (h.mem c' hc').2 (Nat.not_lt.mpr (heq ▸ (h'.mem c hc).1))
  mem c hc := by
    obtain hc | hc := List.mem_append.mp hc
    · exact ⟨Nat.le_trans h.le (h'.mem c hc).1, (h'.mem c hc).2⟩
    · exact ⟨(h.mem c hc).1, Nat.lt_of_lt_of_le (h.mem c hc).2 h'.le⟩

/-- A block that takes the next name. -/
theorem makes_push (hc : c.label = ⟨s.supply⟩) : Makes s { supply := s.supply + 1, blocks := c :: s.blocks } [c] := by
  refine ⟨rfl, Nat.le_succ _, List.nodup_singleton _, fun c' hc' => ?_⟩
  obtain rfl := List.mem_singleton.mp hc'
  rw [hc]
  exact ⟨Nat.le_refl _, Nat.lt_succ_self _⟩

theorem newVars_makes : ∀ {ts : List Ty} {s s' : State} {xs : List (Var × Ty)},
    newVars ts s = some (xs, s') → Makes s s' []
  | [], s, s', xs, h => by
      obtain ⟨-, rfl⟩ := Prod.mk.inj (Option.some.inj h)
      exact .refl
  | t :: ts, s, s', xs, h => by
      obtain ⟨x, s₁, h₁, h⟩ := bind_eq_some.mp h
      obtain ⟨-, rfl⟩ := Prod.mk.inj (Option.some.inj h₁)
      obtain ⟨ys, s₂, h₂, h⟩ := bind_eq_some.mp h
      obtain ⟨-, rfl⟩ := Prod.mk.inj (Option.some.inj h)
      obtain ⟨hblocks, hle, -, -⟩ := newVars_makes h₂
      exact ⟨hblocks, Nat.le_trans (Nat.le_succ _) hle, List.nodup_nil, by simp⟩

theorem prefixBlock_makes {statements : List Statement} {n : Label}
    (h : prefixBlock f l statements s = some (n, s')) : ∃ b xs, f.block? l = some b ∧
      Makes s s' [{ args := xs, label := n, statements, transfer := .goto l (xs.map Prod.fst) }] := by
  unfold prefixBlock at h
  cases hb : f.block? l with
  | none =>
    rw [hb] at h
    cases h
  | some b =>
    rw [hb] at h
    obtain ⟨c, s₁, h₁, h⟩ := bind_eq_some.mp h
    obtain ⟨rfl, rfl⟩ := Prod.mk.inj (Option.some.inj h₁)
    obtain ⟨xs, s₂, h₂, h⟩ := bind_eq_some.mp h
    obtain ⟨_, s₃, h₃, h⟩ := bind_eq_some.mp h
    obtain ⟨-, rfl⟩ := Prod.mk.inj (Option.some.inj h₃)
    obtain ⟨rfl, rfl⟩ := Prod.mk.inj (Option.some.inj h)
    obtain ⟨hblocks, hle, -, -⟩ := newVars_makes h₂
    refine ⟨b, xs, rfl, congrArg (_ :: ·) hblocks, Nat.le_trans (Nat.le_succ _) hle, List.nodup_singleton _, ?_⟩
    intro c hc
    obtain rfl := List.mem_singleton.mp hc
    exact ⟨Nat.le_refl _, hle⟩

/-- The statements of a block behind the mark at the start of the function. -/
def body (f : Function) (si : ℕ) (b : Block) : List Statement :=
  if b.label = f.start then make (.enter si) :: b.statements else b.statements

/-- The transfer is a call whose exceptions go to the caller. -/
def RaisesToCaller (f : Function) (t : Transfer) : Prop :=
  f.raises.isSome = true ∧ ∃ args func cont, t = .call args func (.nonTail cont .caller)

/-- **A block with its marks**, and the blocks made for it. -/
inductive Marked (f : Function) (si : ℕ) (b : Block) : Block → List Block → Prop
  | leave : b.transfer.leaves = true → Marked f si b { b with statements := body f si b ++ [leave si] } []
  | stay : b.transfer.leaves = false → ¬ RaisesToCaller f b.transfer →
      Marked f si b { b with statements := body f si b } []
  | handler {args : List Var} {func : Func} {cont c h : Label} {B : Block} {xs ys : List (Var × Ty)} :
      b.transfer = .call args func (.nonTail cont .caller) → f.raises.isSome = true → f.block? cont = some B →
      Marked f si b { b with statements := body f si b, transfer := .call args func (.nonTail c (.handle h)) }
        [{ args := ys, label := c, statements := [], transfer := .goto cont (ys.map Prod.fst) },
          { args := xs, label := h, statements := [leave si], transfer := .raise (xs.map Prod.fst) }]

theorem profileTransfer_of_leaves {ss : List Statement} {t : Transfer} (ht : t.leaves = true) :
    profileTransfer f si ss t = pure (ss ++ [leave si], t) := by
  unfold Transfer.leaves at ht
  split at ht
  · rfl
  · rfl
  · rfl
  · cases ht

theorem profileTransfer_of_stays {ss : List Statement} {t : Transfer} (ht : t.leaves = false)
    (hcall : ∀ args func cont, t ≠ .call args func (.nonTail cont .caller)) :
    profileTransfer f si ss t = pure (ss, t) := by
  unfold profileTransfer
  split
  · exact absurd rfl (hcall _ _ _)
  · cases ht
  · cases ht
  · cases ht
  · rfl

theorem profileTransfer_of_handler {ss ss' : List Statement} {args : List Var} {func : Func} {cont : Label}
    {t : Transfer} (ht : b.transfer = .call args func (.nonTail cont .caller))
    (h : profileTransfer f si ss (.call args func (.nonTail cont .caller)) s = some ((ss', t), s')) :
    ss' = ss ∧ ∃ ext, (∀ b', b' = { b with statements := body f si b, transfer := t } → Marked f si b b' ext) ∧
      Makes s s' ext := by
  obtain ⟨⟨c, k⟩, s₁, h₁, h⟩ := bind_eq_some.mp h
  obtain ⟨heq, rfl⟩ := Prod.mk.inj (Option.some.inj h)
  obtain ⟨rfl, rfl⟩ := Prod.mk.inj heq
  refine ⟨rfl, ?_⟩
  unfold genHandler at h₁
  cases hraises : f.raises with
  | none =>
    rw [hraises] at h₁
    obtain ⟨heq, rfl⟩ := Prod.mk.inj (Option.some.inj h₁)
    obtain ⟨rfl, rfl⟩ := Prod.mk.inj heq
    refine ⟨[], ?_, .refl⟩
    rintro _ rfl
    rw [← ht]
    exact .stay (by rw [ht]; rfl) fun h => Bool.false_ne_true ((congrArg Option.isSome hraises).symm.trans h.1)
  | some ts =>
    rw [hraises] at h₁
    obtain ⟨xs, s₂, h₂, h₁⟩ := bind_eq_some.mp h₁
    obtain ⟨l, s₃, h₃, h₁⟩ := bind_eq_some.mp h₁
    obtain ⟨rfl, rfl⟩ := Prod.mk.inj (Option.some.inj h₃)
    obtain ⟨_, s₄, h₄, h₁⟩ := bind_eq_some.mp h₁
    obtain ⟨-, rfl⟩ := Prod.mk.inj (Option.some.inj h₄)
    obtain ⟨c', s₅, h₅, h₁⟩ := bind_eq_some.mp h₁
    obtain ⟨heq, rfl⟩ := Prod.mk.inj (Option.some.inj h₁)
    obtain ⟨rfl, rfl⟩ := Prod.mk.inj heq
    obtain ⟨B, ys, hB, hmakes⟩ := prefixBlock_makes h₅
    refine ⟨_, ?_, ((newVars_makes h₂).trans (makes_push rfl)).trans hmakes⟩
    rintro _ rfl
    exact .handler ht (by rw [hraises]; rfl) hB

theorem profileBlock_marked (h : profileBlock f si b s = some (b', s')) :
    ∃ ext, Marked f si b b' ext ∧ Makes s s' ext := by
  obtain ⟨⟨ss, t⟩, s₁, h₁, h⟩ := bind_eq_some.mp h
  obtain ⟨rfl, rfl⟩ := Prod.mk.inj (Option.some.inj h)
  change profileTransfer f si (body f si b) b.transfer s = some ((ss, t), s₁) at h₁
  by_cases hcall : ∃ args func cont, b.transfer = .call args func (.nonTail cont .caller)
  · obtain ⟨args, func, cont, ht⟩ := hcall
    rw [ht] at h₁
    obtain ⟨rfl, ext, hmarked, hmakes⟩ := profileTransfer_of_handler ht h₁
    exact ⟨ext, hmarked _ rfl, hmakes⟩
  · cases hleaves : b.transfer.leaves with
    | true =>
      rw [profileTransfer_of_leaves hleaves] at h₁
      obtain ⟨heq, rfl⟩ := Prod.mk.inj (Option.some.inj h₁)
      obtain ⟨rfl, rfl⟩ := Prod.mk.inj heq
      exact ⟨[], .leave hleaves, .refl⟩
    | false =>
      rw [profileTransfer_of_stays hleaves fun args func cont ht => hcall ⟨args, func, cont, ht⟩] at h₁
      obtain ⟨heq, rfl⟩ := Prod.mk.inj (Option.some.inj h₁)
      obtain ⟨rfl, rfl⟩ := Prod.mk.inj heq
      exact ⟨[], .stay hleaves fun h => hcall h.2, .refl⟩

theorem Marked.label {e : List Block} (h : Marked f si b b' e) : b'.label = b.label := by
  cases h with
  | leave => rfl
  | stay => rfl
  | handler => rfl

theorem map_label : ∀ {bs bs' : List Block}, List.Forall₂ (fun b b' => b'.label = b.label) bs bs' →
    bs'.map Block.label = bs.map Block.label
  | _, _, .nil => rfl
  | _, _, .cons h hs => by rw [List.map_cons, List.map_cons, h, map_label hs]

theorem mapM_marked : ∀ {bs bs' : List Block} {s s' : State},
    bs.mapM (profileBlock f si) s = some (bs', s') → ∃ ext, Makes s s' ext ∧
      List.Forall₂ (fun b b' => ∃ e, Marked f si b b' e ∧ e ⊆ ext) bs bs' ∧
      ∀ c ∈ ext, ∃ b ∈ bs, ∃ b' e, Marked f si b b' e ∧ c ∈ e
  | [], bs', s, s', h => by
      obtain ⟨rfl, rfl⟩ := Prod.mk.inj (Option.some.inj h)
      exact ⟨[], .refl, .nil, by simp⟩
  | b :: bs, bs', s, s', h => by
      rw [List.mapM_cons] at h
      obtain ⟨b', s₁, h₁, h⟩ := bind_eq_some.mp h
      obtain ⟨bs'', s₂, h₂, h⟩ := bind_eq_some.mp h
      obtain ⟨rfl, rfl⟩ := Prod.mk.inj (Option.some.inj h)
      obtain ⟨e, hmarked, hmakes⟩ := profileBlock_marked h₁
      obtain ⟨ext, hmakes', hall, hext⟩ := mapM_marked h₂
      refine ⟨ext ++ e, hmakes.trans hmakes', .cons ⟨e, hmarked, List.subset_append_right ..⟩ ?_, fun c hc => ?_⟩
      · exact hall.imp fun _ _ ⟨e', hm, hsub⟩ => ⟨e', hm, List.subset_append_of_subset_left _ hsub⟩
      · obtain hc | hc := List.mem_append.mp hc
        · obtain ⟨b₀, hb₀, h⟩ := hext c hc
          exact ⟨b₀, List.mem_cons_of_mem _ hb₀, h⟩
        · exact ⟨b, List.mem_cons_self, b', e, hmarked, hc⟩

/-- The function has the blocks, and under new names. -/
def New (f f' : Function) (e : List Block) : Prop := ∀ c ∈ e, f'.block? c.label = some c ∧ c.label ∉ f.labels

/-- **A function with its marks**: where its blocks come from. -/
structure Profiled (f : Function) (si : ℕ) (f' : Function) : Prop where
  start : f'.start = f.start
  old : ∀ {l b}, f.block? l = some b → ∃ b' e, Marked f si b b' e ∧ f'.block? l = some b' ∧ New f f' e
  inv : ∀ {d}, d ∈ f'.blocks → f'.block? d.label = some d ∧
    ((∃ b e, f.block? d.label = some b ∧ Marked f si b d e ∧ New f f' e) ∨
      d.label ∉ f.labels ∧ ∃ b b' e, f.block? b.label = some b ∧ Marked f si b b' e ∧ d ∈ e)

theorem exists_profiled {n n' : Supply} (hlabels : (f.blocks.map Block.label).Nodup)
    (hn : ∀ l ∈ f.labels, l.id < n) (h : f.profile false true si n = some (f', n')) : Profiled f si f' := by
  rw [Function.profile, if_neg (by decide)] at h
  obtain ⟨⟨bs, s⟩, hmap, h⟩ := Option.bind_eq_some_iff.mp h
  obtain ⟨rfl, rfl⟩ := Prod.mk.inj (Option.some.inj h)
  obtain ⟨ext, hmakes, hall, hext⟩ := mapM_marked hmap
  have hblocks : s.blocks = ext := hmakes.blocks.trans (List.append_nil _)
  have hold : ∀ b ∈ f.blocks, b.label.id < n := fun b hb =>
    hn _ (List.mem_cons_of_mem _ (List.mem_flatMap.mpr ⟨b, hb, List.mem_cons_self⟩))
  have hmaplabel := map_label (hall.imp fun _ _ ⟨_, hm, _⟩ => hm.label)
  have hnodup : ((s.blocks ++ bs).map Block.label).Nodup := by
    rw [hblocks, List.map_append, hmaplabel]
    refine List.nodup_append.mpr ⟨hmakes.nodup, hlabels, fun l hl l' hl' heq => ?_⟩
    obtain ⟨c, hc, rfl⟩ := List.mem_map.mp hl
    obtain ⟨b, hb, rfl⟩ := List.mem_map.mp hl'
    exact absurd (hold b hb) (Nat.not_lt.mpr (heq ▸ (hmakes.mem c hc).1))
  have hfind : ∀ d ∈ s.blocks ++ bs, (s.blocks ++ bs).find? (·.label = d.label) = some d :=
    Fold.find?_key hnodup
  have hfresh : ∀ c ∈ ext, c.label ∉ f.labels := fun c hc hl =>
    absurd (hn _ hl) (Nat.not_lt.mpr (hmakes.mem c hc).1)
  have hnew : ∀ {e}, e ⊆ ext → New f { f with blocks := s.blocks ++ bs } e := fun hsub c hc =>
    ⟨hfind c (List.mem_append_left _ (hblocks ▸ hsub hc)), hfresh c (hsub hc)⟩
  have hsource : ∀ b ∈ f.blocks, f.block? b.label = some b := Fold.find?_key hlabels
  refine ⟨rfl, fun {l b} hb => ?_, fun {d} hd => ⟨hfind d hd, ?_⟩⟩
  · obtain rfl := Function.block?_label hb
    obtain ⟨b', hb', e, hm, hsub⟩ := Fold.exists_of_mem_left hall (Function.block?_mem hb)
    refine ⟨b', e, hm, ?_, hnew hsub⟩
    rw [← hm.label]
    exact hfind b' (List.mem_append_right _ hb')
  · obtain hd | hd := List.mem_append.mp hd
    · obtain ⟨b, hb, b', e, hm, hc⟩ := hext d (hblocks ▸ hd)
      exact .inr ⟨hfresh d (hblocks ▸ hd), b, b', e, hsource b hb, hm, hc⟩
    · obtain ⟨b, hb, e, hm, hsub⟩ := Fold.exists_of_mem_right hall hd
      refine .inl ⟨b, e, ?_, hm, hnew hsub⟩
      rw [hm.label]
      exact hsource b hb

theorem Profiled.closed (h : Profiled f si f') (hf : f.Closed) : f'.Closed := by
  have hold : ∀ {l}, l ∈ f.labels → ∃ b, f'.block? l = some b := by
    intro l hl
    obtain ⟨b, hb⟩ := hf l hl
    obtain ⟨b', e, -, hb', -⟩ := h.old hb
    exact ⟨b', hb'⟩
  have htarget : ∀ {b l₀ l}, f.block? l₀ = some b → l ∈ b.transfer.labels → ∃ b, f'.block? l = some b := by
    intro b l₀ l hb hl
    refine hold (f.succs_subset_labels l₀ ?_)
    rwa [Function.succs_of_block? hb]
  have hext : ∀ {b b' e c}, f.block? b.label = some b → Marked f si b b' e → c ∈ e →
      ∀ l ∈ c.transfer.labels, ∃ b, f'.block? l = some b := by
    intro b b' e c hb hm hc l hl
    cases hm with
    | leave => cases hc
    | stay => cases hc
    | handler ht _ hB =>
      simp only [List.mem_cons, List.not_mem_nil, or_false] at hc
      obtain rfl | rfl := hc
      · obtain rfl := List.mem_singleton.mp hl
        obtain ⟨b'', _, -, hb'', -⟩ := h.old hB
        exact ⟨b'', hb''⟩
      · cases hl
  intro l hl
  obtain rfl | hl := List.mem_cons.mp hl
  · rw [h.start]
    exact hold f.start_mem_labels
  · obtain ⟨d, hd, hl⟩ := List.mem_flatMap.mp hl
    obtain ⟨hfind, hd⟩ := h.inv hd
    obtain rfl | hl := List.mem_cons.mp hl
    · exact ⟨d, hfind⟩
    · obtain ⟨b, e, hb, hm, hnew⟩ | ⟨-, b, b', e, hb, hm, hc⟩ := hd
      · cases hm with
        | leave => exact htarget hb hl
        | stay => exact htarget hb hl
        | handler =>
          simp only [Transfer.labels, Return.labels, Handler.labels, List.mem_cons, List.not_mem_nil, or_false] at hl
          obtain rfl | rfl := hl
          · exact ⟨_, (hnew _ List.mem_cons_self).1⟩
          · exact ⟨_, (hnew _ (List.mem_cons_of_mem _ List.mem_cons_self)).1⟩
      · exact hext hb hm hc l hl

/-! ## A function can be marked -/

theorem exists_newVars : ∀ (ts : List Ty) (s : State), ∃ xs s', newVars ts s = some (xs, s')
  | [], s => ⟨[], s, rfl⟩
  | t :: ts, s => by
      obtain ⟨xs, s', h⟩ := exists_newVars ts { s with supply := s.supply + 1 }
      exact ⟨(⟨s.supply⟩, t) :: xs, s', bind_eq_some.mpr ⟨_, _, rfl, bind_eq_some.mpr ⟨xs, s', h, rfl⟩⟩⟩

theorem exists_prefixBlock (hb : f.block? l = some b) (ss : List Statement) (s : State) :
    ∃ c s', prefixBlock f l ss s = some (c, s') := by
  unfold prefixBlock
  rw [hb]
  obtain ⟨xs, s', h⟩ := exists_newVars (b.args.map Prod.snd) { s with supply := s.supply + 1 }
  exact ⟨_, _, bind_eq_some.mpr ⟨_, _, rfl, bind_eq_some.mpr ⟨xs, s', h, rfl⟩⟩⟩

theorem exists_genHandler (si : ℕ) (hb : f.block? l = some b) (s : State) : ∃ r s', genHandler f si l s = some (r, s') := by
  unfold genHandler
  cases f.raises with
  | none => exact ⟨_, _, rfl⟩
  | some ts =>
    obtain ⟨xs, s₁, h₁⟩ := exists_newVars ts s
    obtain ⟨c, s₂, h₂⟩ := exists_prefixBlock hb []
      { supply := s₁.supply + 1, blocks :=
        { args := xs, label := ⟨s₁.supply⟩, statements := [leave si], transfer := .raise (xs.map Prod.fst) } ::
          s₁.blocks }
    exact ⟨_, _, bind_eq_some.mpr ⟨xs, s₁, h₁, bind_eq_some.mpr ⟨_, _, rfl, bind_eq_some.mpr ⟨_, _, rfl,
      bind_eq_some.mpr ⟨c, s₂, h₂, rfl⟩⟩⟩⟩⟩

theorem exists_profileBlock (si : ℕ) (hf : ∀ l ∈ b.transfer.labels, ∃ b, f.block? l = some b) (s : State) :
    ∃ b' s', profileBlock f si b s = some (b', s') := by
  have htransfer : ∃ r s', profileTransfer f si (body f si b) b.transfer s = some (r, s') := by
    by_cases hcall : ∃ args func cont, b.transfer = .call args func (.nonTail cont .caller)
    · obtain ⟨args, func, cont, ht⟩ := hcall
      rw [ht] at hf ⊢
      obtain ⟨B, hB⟩ := hf cont List.mem_cons_self
      obtain ⟨r, s', h⟩ := exists_genHandler si hB s
      exact ⟨_, _, bind_eq_some.mpr ⟨r, s', h, rfl⟩⟩
    · cases hleaves : b.transfer.leaves with
      | true => exact ⟨_, _, by rw [profileTransfer_of_leaves hleaves]; rfl⟩
      | false =>
        exact ⟨_, _, by
          rw [profileTransfer_of_stays hleaves fun args func cont ht => hcall ⟨args, func, cont, ht⟩]
          rfl⟩
  obtain ⟨r, s', h⟩ := htransfer
  exact ⟨_, _, bind_eq_some.mpr ⟨r, s', h, rfl⟩⟩

theorem exists_mapM_profileBlock (si : ℕ) : ∀ {bs : List Block},
    (∀ b ∈ bs, ∀ l ∈ b.transfer.labels, ∃ b, f.block? l = some b) → ∀ s,
    ∃ bs' s', bs.mapM (profileBlock f si) s = some (bs', s')
  | [], _, s => ⟨[], s, rfl⟩
  | b :: bs, hbs, s => by
      obtain ⟨hb, hbs⟩ := List.forall_mem_cons.mp hbs
      obtain ⟨b', s₁, h₁⟩ := exists_profileBlock si hb s
      obtain ⟨bs', s₂, h₂⟩ := exists_mapM_profileBlock si hbs s₁
      refine ⟨b' :: bs', s₂, ?_⟩
      rw [List.mapM_cons]
      exact bind_eq_some.mpr ⟨b', s₁, h₁, bind_eq_some.mpr ⟨bs', s₂, h₂, rfl⟩⟩

theorem exists_profile (hf : f.Closed) (si : ℕ) (n : Supply) : ∃ f' n', f.profile false true si n = some (f', n') := by
  obtain ⟨bs, s, h⟩ := exists_mapM_profileBlock si
    (fun b (hb : b ∈ f.blocks) l hl => hf l (List.mem_cons_of_mem _ (List.mem_flatMap.mpr ⟨b, hb, List.mem_cons_of_mem _ hl⟩)))
    { supply := n, blocks := [] }
  exact ⟨_, _, (if_neg (by decide)).trans (Option.bind_eq_some_iff.mpr ⟨(bs, s), h, rfl⟩)⟩

end Profile

end MLton.Ssa
