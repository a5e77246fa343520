import MLton.Rssa.Live

/-!
# Rssa/LiveCollect — what the walk over a function collects

Each action of the walk is one of a few (`mem_actions_define`, `mem_actions_use`, `mem_actions_edge`), and
each adds to what has been collected: which nodes follow each other (`mem_preds`), where a variable is used
(`mem_used`) and the node that defines it (`defined_eq`).
-/

namespace MLton.Rssa.Live

open Worklist

variable {f : Function} {shouldConsider : Var → Bool} {x y : Var}
  {b b' d : LiveInfo} {B B' : Block} {l l' : Label} {pt : Point} {n : ℕ}

/-! ## What the walk does -/

/-- The variable that an action defines. -/
def Action.defVar : Action → Option Var
  | define x _ => some x
  | _ => none

/-- The node of a point that defines. -/
def defNode : Point → LiveInfo
  | (_, 0) => .head
  | (l, 1) => .arg l
  | (l, _ + 2) => .body l

theorem argInfo_of_mem (hx : x ∈ B.args.map Prod.fst) : B.argInfo = .arg B.label := by
  obtain ⟨d, hd, -⟩ := List.mem_map.mp hx
  rw [Block.argInfo, if_neg (by simpa using List.ne_nil_of_mem hd)]

theorem mem_slots {a : Action} {s : Statement} (h : a ∈ slots b s) :
    a = .handlerCode (.define b) ∨ a = .handlerLink (.define b) ∨ a = .handlerLink (.use () b) := by
  cases s with
  | setExnStackSlot => exact .inr (.inr (List.mem_singleton.mp h))
  | setHandler => exact .inl (List.mem_singleton.mp h)
  | setSlotExnStack => exact .inr (.inl (List.mem_singleton.mp h))
  | _ => cases h

theorem mem_goto {a : Action} : a ∈ goto f b l ↔ ∃ B, f.block? l = some B ∧ a = .edge b B.argInfo := by
  simp [goto, eq_comm]

theorem mem_label {a : Action} : a ∈ label f b l ↔
    (∃ B, f.block? l = some B ∧ B.kind ≠ .handler ∧ a = .edge b B.argInfo) ∨
    (∃ B, f.block? l = some B ∧ B.kind = .handler ∧ a = .handlerCode (.use l b)) := by
  unfold label
  cases hB : f.block? l with
  | none => simp [goto, hB]
  | some B => cases hkind : B.kind <;> simp [goto, hB, hkind, eq_comm]

theorem mem_visitStatement {a : Action} {s : Statement} : a ∈ visitStatement b s ↔
    (∃ x ∈ s.uses, a = .use x b) ∨ (∃ x ∈ s.defs.map Prod.fst, a = .define x b) ∨ a ∈ slots b s := by
  simp [visitStatement, eq_comm]

theorem mem_visitBlock {a : Action} : a ∈ visitBlock f B ↔
    (∃ x ∈ B.args.map Prod.fst, a = .define x B.argInfo) ∨
    (∃ l ∈ B.kind.labels, a ∈ goto f B.bodyInfo l) ∨
    (∃ s ∈ B.statements, a ∈ visitStatement B.bodyInfo s) ∨
    (∃ l ∈ B.transfer.labels, a ∈ label f B.bodyInfo l) ∨ ∃ x ∈ B.transfer.uses, a = .use x B.bodyInfo := by
  simp [visitBlock, eq_comm]

theorem mem_actions {a : Action} : a ∈ actions f ↔
    (∃ B ∈ f.blocks, B.args.isEmpty = false ∧ a = .edge B.argInfo B.bodyInfo) ∨
    (∃ x ∈ f.args.map Prod.fst, a = .define x .head) ∨ ∃ B ∈ f.blocks, a ∈ visitBlock f B := by
  rw [actions, List.mem_append, List.mem_append, or_assoc, List.mem_flatMap, List.mem_flatMap]
  refine or_congr (exists_congr fun B => and_congr_right fun _ => ?_) (or_congr ?_ Iff.rfl)
  · cases B.args.isEmpty <;> simp
  · simp [eq_comm]

/-- **Where a variable is defined**. -/
theorem mem_actions_define (hf : f.Ssa) :
    .define x d ∈ actions f ↔ ∃ pt, f.Defines x pt ∧ d = defNode pt := by
  rw [mem_actions]
  constructor
  · rintro (⟨B, -, -, ⟨⟩⟩ | ⟨y, hy, ⟨⟩⟩ | ⟨B, hB, h⟩)
    · exact ⟨f.entry, .inr ⟨hy, rfl⟩, rfl⟩
    · have hblock := hf.block?_of_mem hB
      obtain ⟨y, hy, ⟨⟩⟩ | ⟨l, -, h⟩ | ⟨s, hs, h⟩ | ⟨l, -, h⟩ | ⟨y, -, ⟨⟩⟩ := mem_visitBlock.mp h
      · exact ⟨_, .inl (.formal hblock hy), argInfo_of_mem hy⟩
      · obtain ⟨B', -, ⟨⟩⟩ := mem_goto.mp h
      · obtain ⟨y, -, ⟨⟩⟩ | ⟨y, hy, ⟨⟩⟩ | h := mem_visitStatement.mp h
        · obtain ⟨i, hi⟩ := List.mem_iff_getElem?.mp hs
          exact ⟨_, .inl (.statement hblock hi hy), rfl⟩
        · obtain ⟨⟨⟩⟩ | ⟨⟨⟩⟩ | ⟨⟨⟩⟩ := mem_slots h
      · obtain ⟨B', -, -, ⟨⟩⟩ | ⟨B', -, -, ⟨⟩⟩ := mem_label.mp h
  · rintro ⟨pt, hbind | ⟨hx, rfl⟩, rfl⟩
    · refine .inr (.inr ?_)
      cases hbind with
      | @formal l B hB hx =>
        obtain rfl := Function.block?_label hB
        refine ⟨B, Function.block?_mem hB, mem_visitBlock.mpr (.inl ⟨x, hx, ?_⟩)⟩
        rw [argInfo_of_mem hx]
        rfl
      | @statement l B i s hB hs hx =>
        obtain rfl := Function.block?_label hB
        refine ⟨B, Function.block?_mem hB, mem_visitBlock.mpr (.inr (.inr (.inl ⟨s, ?_, ?_⟩)))⟩
        · exact List.mem_of_getElem? hs
        · exact mem_visitStatement.mpr (.inr (.inl ⟨x, hx, rfl⟩))
    · exact .inr (.inl ⟨x, hx, rfl⟩)

/-- **Where a variable is used**. -/
theorem mem_actions_use (hf : f.Ssa) :
    .use x d ∈ actions f ↔ ∃ l i, f.Uses x (l, i + 1) ∧ d = .body l := by
  rw [mem_actions]
  constructor
  · rintro (⟨B, -, -, ⟨⟩⟩ | ⟨y, -, ⟨⟩⟩ | ⟨B, hB, h⟩)
    have hblock := hf.block?_of_mem hB
    obtain ⟨y, -, ⟨⟩⟩ | ⟨l, -, h⟩ | ⟨s, hs, h⟩ | ⟨l, -, h⟩ | ⟨y, hy, ⟨⟩⟩ := mem_visitBlock.mp h
    · obtain ⟨B', -, ⟨⟩⟩ := mem_goto.mp h
    · obtain ⟨y, hy, ⟨⟩⟩ | ⟨y, -, ⟨⟩⟩ | h := mem_visitStatement.mp h
      · obtain ⟨i, hi⟩ := List.mem_iff_getElem?.mp hs
        exact ⟨B.label, i, .statement hblock hi hy, rfl⟩
      · obtain ⟨⟨⟩⟩ | ⟨⟨⟩⟩ | ⟨⟨⟩⟩ := mem_slots h
    · obtain ⟨B', -, -, ⟨⟩⟩ | ⟨B', -, -, ⟨⟩⟩ := mem_label.mp h
    · exact ⟨B.label, B.statements.length, .transfer hblock hy, rfl⟩
  · rintro ⟨l, i, huse, rfl⟩
    refine .inr (.inr ?_)
    cases huse with
    | @statement _ B _ s hB hs hx =>
      obtain rfl := Function.block?_label hB
      refine ⟨B, Function.block?_mem hB, mem_visitBlock.mpr (.inr (.inr (.inl ⟨s, ?_, ?_⟩)))⟩
      · exact List.mem_of_getElem? hs
      · exact mem_visitStatement.mpr (.inl ⟨x, hx, rfl⟩)
    | @transfer _ B hB hx =>
      obtain rfl := Function.block?_label hB
      exact ⟨B, Function.block?_mem hB, mem_visitBlock.mpr (.inr (.inr (.inr (.inr ⟨x, hx, rfl⟩))))⟩

/-- The edges between nodes. -/
inductive Edge (f : Function) : LiveInfo → LiveInfo → Prop
  | formals {l : Label} {B : Block} : f.block? l = some B → B.args.isEmpty = false → Edge f (.arg l) (.body l)
  | handler {l h : Label} {B B' : Block} : f.block? l = some B → B.kind = .cont (.handle h) →
      f.block? h = some B' → Edge f (.body l) B'.argInfo
  | transfer {l l' : Label} {B B' : Block} : f.block? l = some B → l' ∈ B.transfer.labels →
      f.block? l' = some B' → B'.kind ≠ .handler → Edge f (.body l) B'.argInfo

theorem mem_kind_labels {k : Kind} : l ∈ k.labels ↔ k = .cont (.handle l) := by
  cases k with
  | cont h => cases h <;> simp [Kind.labels, eq_comm]
  | _ => simp [Kind.labels]

/-- **Which nodes follow each other**. -/
theorem mem_actions_edge (hf : f.Ssa) : .edge b d ∈ actions f ↔ Edge f b d := by
  rw [mem_actions]
  constructor
  · rintro (⟨B, hB, hargs, ⟨⟩⟩ | ⟨y, -, ⟨⟩⟩ | ⟨B, hB, h⟩)
    · rw [Block.argInfo, if_neg (by simp [hargs])]
      exact .formals (hf.block?_of_mem hB) hargs
    · have hblock := hf.block?_of_mem hB
      obtain ⟨y, -, ⟨⟩⟩ | ⟨l, hl, h⟩ | ⟨s, -, h⟩ | ⟨l, hl, h⟩ | ⟨y, -, ⟨⟩⟩ := mem_visitBlock.mp h
      · obtain ⟨B', hB', ⟨⟩⟩ := mem_goto.mp h
        exact .handler hblock (mem_kind_labels.mp hl) hB'
      · obtain ⟨y, -, ⟨⟩⟩ | ⟨y, -, ⟨⟩⟩ | h := mem_visitStatement.mp h
        obtain ⟨⟨⟩⟩ | ⟨⟨⟩⟩ | ⟨⟨⟩⟩ := mem_slots h
      · obtain ⟨B', hB', hkind, ⟨⟩⟩ | ⟨B', -, -, ⟨⟩⟩ := mem_label.mp h
        exact .transfer hblock hl hB' hkind
  · intro h
    cases h with
    | @formals l B hB hargs =>
      obtain rfl := Function.block?_label hB
      refine .inl ⟨B, Function.block?_mem hB, hargs, ?_⟩
      rw [Block.argInfo, if_neg (by simp [hargs])]
      rfl
    | @handler l h B B' hB hkind hB' =>
      obtain rfl := Function.block?_label hB
      refine .inr (.inr ⟨B, Function.block?_mem hB, mem_visitBlock.mpr (.inr (.inl ⟨h, ?_, ?_⟩))⟩)
      · exact mem_kind_labels.mpr hkind
      · exact mem_goto.mpr ⟨B', hB', rfl⟩
    | @transfer l l' B B' hB hl hB' hkind =>
      obtain rfl := Function.block?_label hB
      refine .inr (.inr ⟨B, Function.block?_mem hB, mem_visitBlock.mpr (.inr (.inr (.inr (.inl ⟨l', hl, ?_⟩))))⟩)
      exact mem_label.mpr (.inl ⟨B', hB', hkind, rfl⟩)

/-! ## What the walk collects -/

theorem mem_foldl_preds : ∀ {as : List Action} {s : Info},
    b ∈ (as.foldl (Info.act shouldConsider) s).preds b' ↔ b ∈ s.preds b' ∨ .edge b b' ∈ as
  | [], s => by simp
  | a :: as, s => by
      have hact : b ∈ (s.act shouldConsider a).preds b' ↔ b ∈ s.preds b' ∨ a = .edge b b' := by
        cases a with
        | edge c c' =>
          simp only [Info.act, Action.edge.injEq]
          split
          · next hmem =>
            refine ⟨.inl, fun h => h.elim id ?_⟩
            rintro ⟨rfl, rfl⟩
            exact hmem
          · by_cases hc : b' = c'
            · subst hc
              simp [or_comm, eq_comm]
            · simp [hc, Ne.symm hc]
        | define => simp only [Info.act]; split <;> simp
        | use => simp only [Info.act]; repeat' split <;> simp
        | handlerCode => simp [Info.act]
        | handlerLink => simp [Info.act]
      rw [List.foldl_cons, mem_foldl_preds, hact, List.mem_cons, or_assoc, eq_comm]

theorem mem_foldl_used (hx : shouldConsider x = true) : ∀ {as : List Action} {s : Info},
    b ∈ (as.foldl (Info.act shouldConsider) s).used x ↔ b ∈ s.used x ∨ .use x b ∈ as
  | [], s => by simp
  | a :: as, s => by
      have hact : b ∈ (s.act shouldConsider a).used x ↔ b ∈ s.used x ∨ a = .use x b := by
        cases a with
        | edge => simp only [Info.act]; split <;> simp
        | define => simp only [Info.act]; split <;> simp
        | use y c =>
          simp only [Info.act, Action.use.injEq]
          by_cases hy : y = x
          · subst hy
            rw [if_pos hx]
            split
            · next hhead =>
              refine ⟨.inl, fun h => h.elim id ?_⟩
              rintro ⟨-, rfl⟩
              exact List.mem_of_head? hhead
            · simp [or_comm, eq_comm]
          · repeat' split
            all_goals simp [hy, Ne.symm hy]
        | handlerCode => simp [Info.act]
        | handlerLink => simp [Info.act]
      rw [List.foldl_cons, mem_foldl_used hx, hact, List.mem_cons, or_assoc, eq_comm]

theorem foldl_allVars : ∀ {as : List Action} {s : Info},
    (as.foldl (Info.act shouldConsider) s).allVars =
      ((as.filterMap Action.defVar).filter shouldConsider).reverse ++ s.allVars
  | [], s => by simp
  | a :: as, s => by
      rw [List.foldl_cons, foldl_allVars]
      cases a with
      | edge => simp only [Info.act, Action.defVar, List.filterMap_cons]; split <;> rfl
      | define y c =>
        simp only [Info.act, Action.defVar, List.filterMap_cons]
        split
        · next hy => simp [hy]
        · next hy => simp [hy]
      | use =>
        simp only [Info.act, Action.defVar, List.filterMap_cons]
        repeat' split
        all_goals rfl
      | handlerCode => rfl
      | handlerLink => rfl

theorem foldl_defined : ∀ {as : List Action} {s : Info},
    (as.foldl (Info.act shouldConsider) s).defined x = some d →
      s.defined x = some d ∨ shouldConsider x = true ∧ .define x d ∈ as
  | [], _, h => .inl h
  | a :: as, s, h => by
      rw [List.foldl_cons] at h
      obtain h | ⟨hx, h⟩ := foldl_defined h
      · cases a with
        | edge =>
          simp only [Info.act] at h
          split at h <;> exact .inl h
        | define y c =>
          simp only [Info.act] at h
          split at h
          · next hy =>
            change Function.update s.defined y (some c) x = some d at h
            by_cases hyx : x = y
            · subst hyx
              rw [Function.update_self] at h
              obtain rfl := Option.some.inj h
              exact .inr ⟨hy, List.mem_cons_self⟩
            · rw [Function.update_of_ne hyx] at h
              exact .inl h
          · exact .inl h
        | use =>
          simp only [Info.act] at h
          repeat' split at h
          all_goals exact .inl h
        | handlerCode => exact .inl h
        | handlerLink => exact .inl h
      · exact .inr ⟨hx, List.mem_cons_of_mem _ h⟩

theorem foldl_isSome_defined (hx : shouldConsider x = true) : ∀ {as : List Action} {s : Info},
    ((s.defined x).isSome = true ∨ x ∈ as.filterMap Action.defVar) →
      ((as.foldl (Info.act shouldConsider) s).defined x).isSome = true
  | [], s, h => by simpa using h
  | a :: as, s, h => by
      rw [List.foldl_cons]
      refine foldl_isSome_defined hx ?_
      cases a with
      | edge =>
        simp only [Info.act]
        split <;> exact h
      | define y c =>
        simp only [Info.act]
        by_cases hy : x = y
        · subst hy
          rw [if_pos hx]
          exact .inl (by simp)
        · have h : (s.defined x).isSome = true ∨ x ∈ as.filterMap Action.defVar := by
            simpa [Action.defVar, hy] using h
          split
          · exact h.imp_left fun h => (congrArg Option.isSome (Function.update_of_ne hy ..)).trans h
          · exact h
      | use =>
        simp only [Info.act]
        repeat' split
        all_goals exact h
      | handlerCode => exact h
      | handlerLink => exact h

theorem foldl_handlerCode {du : DefUse Label} : ∀ {as : List Action} {s : Info},
    du ∈ (as.foldl (Info.act shouldConsider) s).handlerCode → du ∈ s.handlerCode ∨ .handlerCode du ∈ as
  | [], _, h => .inl h
  | a :: as, s, h => by
      rw [List.foldl_cons] at h
      obtain h | h := foldl_handlerCode h
      · cases a with
        | handlerCode => exact (List.mem_cons.mp h).elim (fun h => .inr (h ▸ List.mem_cons_self)) .inl
        | handlerLink => exact .inl h
        | _ =>
          simp only [Info.act] at h
          repeat' split at h
          all_goals exact .inl h
      · exact .inr (List.mem_cons_of_mem _ h)

theorem foldl_handlerLink {du : DefUse Unit} : ∀ {as : List Action} {s : Info},
    du ∈ (as.foldl (Info.act shouldConsider) s).handlerLink → du ∈ s.handlerLink ∨ .handlerLink du ∈ as
  | [], _, h => .inl h
  | a :: as, s, h => by
      rw [List.foldl_cons] at h
      obtain h | h := foldl_handlerLink h
      · cases a with
        | handlerCode => exact .inl h
        | handlerLink => exact (List.mem_cons.mp h).elim (fun h => .inr (h ▸ List.mem_cons_self)) .inl
        | _ =>
          simp only [Info.act] at h
          repeat' split at h
          all_goals exact .inl h
      · exact .inr (List.mem_cons_of_mem _ h)

theorem definitions_map_fst :
    B.definitions.map Prod.fst = B.args.map Prod.fst ++ B.statements.flatMap fun s => s.defs.map Prod.fst := by
  have hzip : ∀ {g : Statement → List Var}, (B.statements.zipIdx.flatMap fun si => g si.1) = B.statements.flatMap g := by
    intro g
    conv_rhs => rw [← List.zipIdx_map_fst 0 B.statements, List.flatMap_map]
  simp [Block.definitions, List.map_flatMap, Function.comp_def, ← hzip]

/-- A block defines what the walk finds in it. -/
theorem filterMap_visitBlock : (visitBlock f B).filterMap Action.defVar = B.definitions.map Prod.fst := by
  have hgoto : ∀ l, (goto f B.bodyInfo l).filterMap Action.defVar = [] := fun l =>
    List.filterMap_eq_nil_iff.mpr fun a ha => by
      obtain ⟨B', -, rfl⟩ := mem_goto.mp ha
      rfl
  have hlabel : ∀ l, (label f B.bodyInfo l).filterMap Action.defVar = [] := fun l =>
    List.filterMap_eq_nil_iff.mpr fun a ha => by
      obtain ⟨B', -, -, rfl⟩ | ⟨B', -, -, rfl⟩ := mem_label.mp ha
      · rfl
      · rfl
  have hslots : ∀ s, (slots B.bodyInfo s).filterMap Action.defVar = [] := fun s =>
    List.filterMap_eq_nil_iff.mpr fun a ha => by
      obtain rfl | rfl | rfl := mem_slots ha
      · rfl
      · rfl
      · rfl
  have huse : ∀ xs : List Var, (xs.map (Action.use · B.bodyInfo)).filterMap Action.defVar = [] := by
    simp [Action.defVar]
  have hdefine : ∀ (ds : List (Var × Ty)) b,
      (ds.map fun d => Action.define d.1 b).filterMap Action.defVar = ds.map Prod.fst := by
    intro ds b
    rw [List.filterMap_map, ← List.filterMap_eq_map]
    rfl
  have hnil : ∀ ls : List Label, (ls.flatMap fun _ => ([] : List Var)) = [] := fun ls =>
    List.flatMap_eq_nil_iff.mpr fun _ _ => rfl
  simp [visitBlock, visitStatement, List.filterMap_append, List.filterMap_flatMap, hgoto, hlabel, hslots, huse,
    hdefine, definitions_map_fst, hnil]

theorem filterMap_defVar : (actions f).filterMap Action.defVar = f.definitions.map Prod.fst := by
  have hargs : (f.args.map fun d => Action.define d.1 .head).filterMap Action.defVar = f.args.map Prod.fst := by
    rw [List.filterMap_map, ← List.filterMap_eq_map]
    rfl
  simp only [actions, List.filterMap_append, List.filterMap_flatMap, hargs, filterMap_visitBlock,
    Function.definitions, List.map_append, List.map_flatMap, List.map_map, Function.comp_def, List.append_assoc]
  rw [List.flatMap_eq_nil_iff.mpr fun B _ => by split <;> rfl, List.nil_append]

section Collect

variable (hf : f.Ssa)

include hf

theorem mem_preds : b ∈ (collect f shouldConsider).preds d ↔ Edge f b d := by
  rw [collect, mem_foldl_preds, mem_actions_edge hf]
  exact or_iff_right List.not_mem_nil

theorem mem_used (hx : shouldConsider x = true) :
    d ∈ (collect f shouldConsider).used x ↔ ∃ l i, f.Uses x (l, i + 1) ∧ d = .body l := by
  rw [collect, mem_foldl_used hx, mem_actions_use hf]
  exact or_iff_right List.not_mem_nil

theorem mem_filterMap_defVar : x ∈ (actions f).filterMap Action.defVar ↔ ∃ q, f.Defines x q := by
  rw [List.mem_filterMap]
  constructor
  · rintro ⟨a, ha, hx⟩
    cases a with
    | define y d =>
      obtain rfl := Option.some.inj hx
      obtain ⟨q, hq, -⟩ := (mem_actions_define hf).mp ha
      exact ⟨q, hq⟩
    | _ => cases hx
  · rintro ⟨q, hq⟩
    exact ⟨.define x (defNode q), (mem_actions_define hf).mpr ⟨q, hq, rfl⟩, rfl⟩

theorem mem_allVars :
    x ∈ (collect f shouldConsider).allVars ↔ shouldConsider x = true ∧ ∃ q, f.Defines x q := by
  rw [collect, foldl_allVars, List.mem_append, List.mem_reverse, List.mem_filter, mem_filterMap_defVar hf, and_comm]
  exact or_iff_left List.not_mem_nil

theorem nodup_allVars : (collect f shouldConsider).allVars.Nodup := by
  rw [collect, foldl_allVars, filterMap_defVar]
  simpa [Info.empty] using hf.once.filter shouldConsider

/-- **The node that defines a variable**. -/
theorem defined_eq (hx : shouldConsider x = true) (hq : f.Defines x pt) :
    (collect f shouldConsider).defined x = some (defNode pt) := by
  have hsome : ((collect f shouldConsider).defined x).isSome = true :=
    foldl_isSome_defined hx (.inr ((mem_filterMap_defVar hf).mpr ⟨pt, hq⟩))
  obtain ⟨d, hd⟩ := Option.isSome_iff_exists.mp hsome
  obtain h | ⟨-, h⟩ := foldl_defined hd
  · cases h
  · obtain ⟨q, hq', rfl⟩ := (mem_actions_define hf).mp h
    rw [hd, hf.unique hq' hq]

end Collect

/-! ## Nodes -/

theorem body_mem_nodes (hB : B ∈ f.blocks) : .body B.label ∈ nodes f :=
  List.mem_cons_of_mem _ (List.mem_flatMap.mpr ⟨B, hB, by simp⟩)

theorem arg_mem_nodes (hB : B ∈ f.blocks) : .arg B.label ∈ nodes f :=
  List.mem_cons_of_mem _ (List.mem_flatMap.mpr ⟨B, hB, by simp⟩)

theorem Edge.mem_nodes (h : Edge f b d) : b ∈ nodes f := by
  cases h with
  | formals hB => exact Function.block?_label hB ▸ arg_mem_nodes (Function.block?_mem hB)
  | handler hB => exact Function.block?_label hB ▸ body_mem_nodes (Function.block?_mem hB)
  | transfer hB => exact Function.block?_label hB ▸ body_mem_nodes (Function.block?_mem hB)

theorem uses_mem_nodes {i : ℕ} (h : f.Uses x (l, i)) : .body l ∈ nodes f := by
  cases h with
  | statement hB => exact Function.block?_label hB ▸ body_mem_nodes (Function.block?_mem hB)
  | transfer hB => exact Function.block?_label hB ▸ body_mem_nodes (Function.block?_mem hB)

/-- Handlers are used at nodes of the function. -/
theorem handler_mem_nodes {a : Action} (ha : a ∈ actions f)
    (h : (∃ l, a = .handlerCode (.use l b)) ∨ a = .handlerLink (.use () b)) : b ∈ nodes f := by
  obtain ⟨B, -, -, rfl⟩ | ⟨y, -, rfl⟩ | ⟨B, hB, ha⟩ := mem_actions.mp ha
  · obtain ⟨l, ⟨⟩⟩ | ⟨⟨⟩⟩ := h
  · obtain ⟨l, ⟨⟩⟩ | ⟨⟨⟩⟩ := h
  · have hbody := body_mem_nodes hB
    obtain ⟨y, -, rfl⟩ | ⟨l, -, ha⟩ | ⟨s, -, ha⟩ | ⟨l, -, ha⟩ | ⟨y, -, rfl⟩ := mem_visitBlock.mp ha
    · obtain ⟨l, ⟨⟩⟩ | ⟨⟨⟩⟩ := h
    · obtain ⟨B', -, rfl⟩ := mem_goto.mp ha
      obtain ⟨l, ⟨⟩⟩ | ⟨⟨⟩⟩ := h
    · obtain ⟨y, -, rfl⟩ | ⟨y, -, rfl⟩ | ha := mem_visitStatement.mp ha
      · obtain ⟨l, ⟨⟩⟩ | ⟨⟨⟩⟩ := h
      · obtain ⟨l, ⟨⟩⟩ | ⟨⟨⟩⟩ := h
      · obtain rfl | rfl | rfl := mem_slots ha
        · obtain ⟨l, ⟨⟩⟩ | ⟨⟨⟩⟩ := h
        · obtain ⟨l, ⟨⟩⟩ | ⟨⟨⟩⟩ := h
        · obtain ⟨l, ⟨⟩⟩ | ⟨⟨⟩⟩ := h
          exact hbody
    · obtain ⟨B', -, -, rfl⟩ | ⟨B', -, -, rfl⟩ := mem_label.mp ha
      · obtain ⟨l, ⟨⟩⟩ | ⟨⟨⟩⟩ := h
      · obtain ⟨l, ⟨⟩⟩ | ⟨⟨⟩⟩ := h
        exact hbody
    · obtain ⟨l, ⟨⟩⟩ | ⟨⟨⟩⟩ := h

end MLton.Rssa.Live
