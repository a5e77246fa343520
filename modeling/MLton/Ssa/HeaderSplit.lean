import MLton.Ssa.Defined

/-!
# Ssa/HeaderSplit — functions whose loop headers are split in two

A plan names the headers to split, the formals that their inner blocks drop, and the gotos that go to the inner
blocks.  It is sound where these gotos pass every dropped formal to itself (`Plan.Sound.redirected`): then the formal
is in scope in front of the goto, so control has come through the header, and the function it makes is well scoped
(`Makes.scoped`), however the loops are nested and wherever they are entered.
-/

namespace MLton.Ssa.HeaderSplit

open MLton.Dominance

/-- What is to be done: the inner label of every header that is split, the formals to drop, the new names of those
that stay, the blocks whose goto goes to an inner block, and the labels of the function that is made. -/
structure Plan where
  inner : Label → Option Label
  dropped : Var → Bool
  fresh : Var → Var
  redirected : Label → Bool
  labels : List Label

namespace Plan

variable (P : Plan)

/-- What the outer block calls a formal. -/
def outer (x : Var) : Var := if P.dropped x then x else P.fresh x

/-- The formals of the inner block. -/
def kept (vts : List (Var × Ty)) : List (Var × Ty) := vts.filter fun vt => !P.dropped vt.1

/-- The arguments for the formals of the inner block. -/
def passed (args : List Var) (vts : List (Var × Ty)) : List Var :=
  ((args.zip vts).filter fun avt => !P.dropped avt.2.1).map Prod.fst

/-- The goto of a block that is redirected. -/
def redirect (f : Function) (dst : Label) (args : List Var) : Transfer :=
  match P.inner dst, f.block? dst with
  | some dst', some d => .goto dst' (P.passed args d.args)
  | _, _ => .goto dst args

/-- The transfer that a block ends in. -/
def transfer (f : Function) (b : Block) : Transfer :=
  match b.transfer with
  | .goto dst args => if P.redirected b.label then P.redirect f dst args else .goto dst args
  | tr => tr

/-- A block that is not split. -/
def whole (f : Function) (b : Block) : Block := { b with transfer := P.transfer f b }

/-- The outer block of a header. -/
def outerBlock (b : Block) (l' : Label) : Block where
  args := b.args.map fun vt => (P.outer vt.1, vt.2)
  label := b.label
  statements := []
  transfer := .goto l' ((P.kept b.args).map fun vt => P.fresh vt.1)

/-- The inner block of a header. -/
def innerBlock (f : Function) (b : Block) (l' : Label) : Block where
  args := P.kept b.args
  label := l'
  statements := b.statements
  transfer := P.transfer f b

/-- What becomes of a block. -/
def blocks (f : Function) (b : Block) : List Block :=
  match P.inner b.label with
  | none => [P.whole f b]
  | some l' => [P.outerBlock b l', P.innerBlock f b l']

/-- A formal that the outer block of a header calls by another name. -/
def Varies (f : Function) (l : Label) (x : Var) : Prop :=
  ∃ l' b, P.inner l = some l' ∧ f.block? l = some b ∧ x ∈ (P.kept b.args).map Prod.fst

/-- **A plan that can be carried out**, with names of a range that is not used yet. -/
structure Sound (lo hi : ℕ) (f : Function) : Prop where
  start : f.start ∈ P.labels
  closed : ∀ l ∈ P.labels, ∀ l' ∈ f.succs l, l' ∈ P.labels
  nodup : P.labels.Nodup
  inner : ∀ {l l'}, P.inner l = some l' → lo ≤ l'.id ∧ l'.id < hi
  innerInj : ∀ {l m l'}, P.inner l = some l' → P.inner m = some l' → l = m
  formals : ∀ {l l' b}, P.inner l = some l' → f.block? l = some b → b.args ≠ []
  fresh : ∀ {l x}, P.Varies f l x → lo ≤ (P.fresh x).id ∧ (P.fresh x).id < hi
  freshInj : ∀ {l m x y}, P.Varies f l x → P.Varies f m y → P.fresh x = P.fresh y → x = y
  redirected : ∀ {l b dst args dst' d}, P.redirected l = true → f.block? l = some b → b.transfer = .goto dst args →
    P.inner dst = some dst' → f.block? dst = some d →
    List.Forall₂ (fun a vt => P.dropped vt.1 = true → a = vt.1) args d.args

end Plan

/-- The names of the function are below the range. -/
structure Below (lo : ℕ) (f : Function) : Prop where
  labels : ∀ l ∈ f.labels, l.id < lo
  args : ∀ x ∈ f.args.map Prod.fst, x.id < lo
  formals : ∀ b ∈ f.blocks, ∀ x ∈ b.args.map Prod.fst, x.id < lo
  binders : ∀ b ∈ f.blocks, ∀ s ∈ b.statements, ∀ x ∈ s.var, x.id < lo
  uses : ∀ b ∈ f.blocks, ∀ s ∈ b.statements, ∀ x ∈ s.exp.vars, x.id < lo
  transfers : ∀ b ∈ f.blocks, ∀ x ∈ b.transfer.vars, x.id < lo

/-- What becomes of the block of a label. -/
def made (P : Plan) (f : Function) (l : Label) : List Block := (f.block? l).toList.flatMap (P.blocks f)

/-- The function that a plan makes of another. -/
structure Makes (P : Plan) (f f' : Function) : Prop where
  start : f'.start = f.start
  name : f'.name = f.name
  args : f'.args = f.args
  raises : f'.raises = f.raises
  returns : f'.returns = f.returns
  blocks : f'.blocks = P.labels.flatMap (made P f)

/-- The block at the second label is made of the one at the first. -/
inductive Place (P : Plan) (f : Function) : Label → Block → Label → Block → Prop
  | whole {l : Label} {b : Block} : l ∈ P.labels → f.block? l = some b → P.inner l = none →
      Place P f l b l (P.whole f b)
  | outer {l l' : Label} {b : Block} : l ∈ P.labels → f.block? l = some b → P.inner l = some l' →
      Place P f l b l (P.outerBlock b l')
  | inner {l l' : Label} {b : Block} : l ∈ P.labels → f.block? l = some b → P.inner l = some l' →
      Place P f l b l' (P.innerBlock f b l')

section

variable {P : Plan} {lo hi : ℕ} {f f' : Function} {l m : Label} {b c : Block} {x y : Var} {globals : List Var}

theorem Place.mem (h : Place P f l b m c) : l ∈ P.labels := by
  cases h <;> assumption

theorem Place.block? (h : Place P f l b m c) : f.block? l = some b := by
  cases h <;> assumption

theorem Place.label (h : Place P f l b m c) : c.label = m := by
  cases h with
  | whole _ hb => exact (Function.block?_label hb :)
  | outer _ hb => exact (Function.block?_label hb :)
  | inner => rfl

theorem Below.label (hlo : Below lo f) (hb : f.block? l = some b) : l.id < lo := by
  obtain rfl := Function.block?_label hb
  exact hlo.labels _ (List.mem_cons_of_mem _
    (List.mem_flatMap.mpr ⟨b, Function.block?_mem hb, List.mem_cons_self ..⟩))

theorem Below.binds {pt : Point} (hlo : Below lo f) (hx : f.Binds x pt) : x.id < lo := by
  cases hx with
  | formal hb hx => exact hlo.formals _ (Function.block?_mem hb) x hx
  | statement hb hs hx => exact hlo.binders _ (Function.block?_mem hb) _ (List.mem_of_getElem? hs) x hx

theorem Plan.Sound.fresh_ne (hP : P.Sound lo hi f) (hx : x.id < lo) (hy : P.Varies f l y) : x ≠ P.fresh y := by
  rintro rfl
  exact absurd hx (Nat.not_lt.mpr (hP.fresh hy).1)

/-- An inner label is the label of no block. -/
theorem Plan.Sound.inner_ne (hP : P.Sound lo hi f) (hlo : Below lo f) {l l' : Label} (hl : P.inner l = some l')
    (hb : f.block? m = some b) : l' ≠ m := by
  rintro rfl
  exact absurd (hlo.label hb) (Nat.not_lt.mpr (hP.inner hl).1)

/-- A block is made of one block only. -/
theorem Place.unique (hP : P.Sound lo hi f) (hlo : Below lo f) {l₁ : Label} {b₁ c₁ : Block} (h : Place P f l b m c)
    (h₁ : Place P f l₁ b₁ m c₁) : l = l₁ ∧ b = b₁ ∧ c = c₁ := by
  have hsame : ∀ {l : Label} {b b₁ : Block}, f.block? l = some b → f.block? l = some b₁ → b = b₁ := fun h h₁ =>
    Option.some.inj (h.symm.trans h₁)
  cases h with
  | whole _ hb hl =>
    cases h₁ with
    | whole _ hb₁ => exact ⟨rfl, hsame hb hb₁, by rw [hsame hb hb₁]⟩
    | outer _ _ hl₁ => cases hl.symm.trans hl₁
    | inner _ _ hl₁ => exact absurd rfl (hP.inner_ne hlo hl₁ hb)
  | outer _ hb hl =>
    cases h₁ with
    | whole _ _ hl₁ => cases hl₁.symm.trans hl
    | outer _ hb₁ hl₁ =>
      obtain rfl := Option.some.inj (hl.symm.trans hl₁)
      exact ⟨rfl, hsame hb hb₁, by rw [hsame hb hb₁]⟩
    | inner _ _ hl₁ => exact absurd rfl (hP.inner_ne hlo hl₁ hb)
  | inner _ hb hl =>
    cases h₁ with
    | whole _ hb₁ => exact absurd rfl (hP.inner_ne hlo hl hb₁)
    | outer _ hb₁ => exact absurd rfl (hP.inner_ne hlo hl hb₁)
    | inner _ hb₁ hl₁ =>
      obtain rfl := hP.innerInj hl hl₁
      exact ⟨rfl, hsame hb hb₁, by rw [hsame hb hb₁]⟩

theorem mem_made_iff (hl : l ∈ P.labels) : c ∈ made P f l ↔ ∃ b m, Place P f l b m c := by
  rw [made, List.mem_flatMap]
  constructor
  · rintro ⟨b, hb, hc⟩
    have hb := Option.mem_toList.mp hb
    rw [Plan.blocks, Function.block?_label hb] at hc
    cases hinner : P.inner l with
    | none =>
      rw [hinner] at hc
      obtain rfl := List.mem_singleton.mp hc
      exact ⟨b, l, .whole hl hb hinner⟩
    | some l' =>
      rw [hinner] at hc
      obtain rfl | hc := List.mem_cons.mp hc
      · exact ⟨b, l, .outer hl hb hinner⟩
      · obtain rfl := List.mem_singleton.mp hc
        exact ⟨b, l', .inner hl hb hinner⟩
  · rintro ⟨b, m, h⟩
    refine ⟨b, Option.mem_toList.mpr h.block?, ?_⟩
    rw [Plan.blocks, Function.block?_label h.block?]
    cases h with
    | whole _ _ hl => simp [hl]
    | outer _ _ hl => simp [hl]
    | inner _ _ hl => simp [hl]

theorem mem_blocks_iff (hf' : Makes P f f') : c ∈ f'.blocks ↔ ∃ l b m, Place P f l b m c := by
  rw [hf'.blocks, List.mem_flatMap]
  constructor
  · rintro ⟨l, hl, hc⟩
    exact ⟨l, (mem_made_iff hl).mp hc⟩
  · rintro ⟨l, b, m, h⟩
    exact ⟨l, h.mem, (mem_made_iff h.mem).mpr ⟨b, m, h⟩⟩

/-- The labels of the new blocks are different. -/
theorem labels_nodup (hP : P.Sound lo hi f) (hlo : Below lo f) (hf' : Makes P f f') :
    (f'.blocks.map Block.label).Nodup := by
  rw [hf'.blocks, List.map_flatMap]
  refine List.nodup_flatMap.mpr ⟨fun l _ => ?_, hP.nodup.imp_of_mem fun {l l₁} hl hl₁ hne => ?_⟩
  · rw [made]
    cases hb : f.block? l with
    | none => simp
    | some b =>
      simp only [Option.toList_some, List.flatMap_singleton, Plan.blocks]
      cases hinner : P.inner b.label with
      | none => simp
      | some l' =>
        have hb' : f.block? b.label = some b := Function.block?_label hb ▸ hb
        simpa [Plan.outerBlock, Plan.innerBlock] using (hP.inner_ne hlo hinner hb').symm
  · intro m hm hm₁
    obtain ⟨c, hc, rfl⟩ := List.mem_map.mp hm
    obtain ⟨c₁, hc₁, heq⟩ := List.mem_map.mp hm₁
    obtain ⟨b, m, h⟩ := (mem_made_iff hl).mp hc
    obtain ⟨b₁, m₁, h₁⟩ := (mem_made_iff hl₁).mp hc₁
    obtain rfl : m₁ = m := h₁.label.symm.trans (heq.trans h.label)
    exact hne (h.unique hP hlo h₁).1

theorem block?_iff (hP : P.Sound lo hi f) (hlo : Below lo f) (hf' : Makes P f f') :
    f'.block? m = some c ↔ ∃ l b, Place P f l b m c := by
  constructor
  · intro hc
    obtain rfl := Function.block?_label hc
    obtain ⟨l, b, m, h⟩ := (mem_blocks_iff hf').mp (Function.block?_mem hc)
    exact ⟨l, b, h.label ▸ h⟩
  · rintro ⟨l, b, h⟩
    have := Fold.find?_key (labels_nodup hP hlo hf') c ((mem_blocks_iff hf').mpr ⟨l, b, m, h⟩)
    rwa [h.label] at this

/-! ## What the new blocks bind -/

/-- Where a formal or a statement of a header goes: the outer block has the dropped formals, and the inner block the
rest. -/
def Plan.Stays (P : Plan) (l m : Label) (x : Var) (j : ℕ) : Prop :=
  P.inner l = none ∨ (m = l ↔ j = 0 ∧ P.dropped x = true)

theorem Place.eq_of_whole (h : Place P f l b m c) (hl : P.inner l = none) : m = l := by
  cases h with
  | whole | outer => rfl
  | inner _ _ hl' => cases hl.symm.trans hl'

theorem Place.inner_of_ne (h : Place P f l b m c) (hne : m ≠ l) : P.inner l = some m := by
  cases h with
  | whole | outer => exact absurd rfl hne
  | inner _ _ hl => exact hl

theorem mem_kept {vts : List (Var × Ty)} :
    x ∈ (P.kept vts).map Prod.fst ↔ x ∈ vts.map Prod.fst ∧ P.dropped x = false := by
  simp only [Plan.kept, List.mem_map, List.mem_filter, Bool.not_eq_true']
  exact ⟨fun ⟨vt, ⟨hvt, hd⟩, heq⟩ => ⟨⟨vt, hvt, heq⟩, heq ▸ hd⟩, fun ⟨⟨vt, hvt, heq⟩, hd⟩ => ⟨vt, ⟨hvt, heq ▸ hd⟩, heq⟩⟩

variable (hP : P.Sound lo hi f) (hlo : Below lo f) (hf' : Makes P f f')

include hP hlo hf'

/-- **What the new blocks bind**: what the old ones do, and new names for the formals that vary. -/
theorem binds_cases {j : ℕ} (hx : f'.Binds x (m, j)) :
    (∃ l b c, Place P f l b m c ∧ f.Binds x (l, j) ∧ P.Stays l m x j) ∨
      ∃ y, x = P.fresh y ∧ P.Varies f m y ∧ j = 0 := by
  cases hx with
  | @formal _ c hc hx =>
    obtain ⟨l, b, h⟩ := (block?_iff hP hlo hf').mp hc
    cases h with
    | whole hl hb hinner => exact .inl ⟨m, b, _, .whole hl hb hinner, .formal hb hx, .inl hinner⟩
    | outer hl hb hinner =>
      obtain ⟨_, hmem, rfl⟩ := List.mem_map.mp hx
      obtain ⟨vt, hvt, rfl⟩ := List.mem_map.mp hmem
      by_cases hd : P.dropped vt.1 = true
      · simp only [Plan.outer, hd, if_true]
        exact .inl ⟨m, b, _, .outer hl hb hinner, .formal hb (List.mem_map_of_mem hvt), .inr (by simp [hd])⟩
      · simp only [Plan.outer, hd]
        refine .inr ⟨vt.1, rfl, ⟨_, b, hinner, hb, mem_kept.mpr ⟨List.mem_map_of_mem hvt, by simpa using hd⟩⟩, trivial⟩
    | inner hl hb hinner =>
      obtain ⟨hx, hd⟩ := mem_kept.mp hx
      exact .inl ⟨l, b, _, .inner hl hb hinner, .formal hb hx, .inr (by simp [hd, hP.inner_ne hlo hinner hb])⟩
  | @statement _ c i s hc hs hx =>
    obtain ⟨l, b, h⟩ := (block?_iff hP hlo hf').mp hc
    cases h with
    | whole hl hb hinner => exact .inl ⟨m, b, _, .whole hl hb hinner, .statement hb hs hx, .inl hinner⟩
    | outer => cases hs
    | inner hl hb hinner =>
      exact .inl ⟨l, b, _, .inner hl hb hinner, .statement hb hs hx, .inr (by simp [hP.inner_ne hlo hinner hb])⟩

theorem Place.binds (h : Place P f l b m c) {j : ℕ} (hx : f.Binds x (l, j)) (hstays : P.Stays l m x j) :
    f'.Binds x (m, j) := by
  have hc := (block?_iff hP hlo hf').mpr ⟨l, b, h⟩
  cases hx with
  | formal hb hx =>
    obtain rfl := Option.some.inj (h.block?.symm.trans hb)
    refine .formal hc ?_
    cases h with
    | whole => exact hx
    | outer _ _ hinner =>
      obtain ⟨vt, hvt, rfl⟩ := List.mem_map.mp hx
      have hd : P.dropped vt.1 = true := ((hstays.resolve_left (by simp [hinner])).mp rfl).2
      exact List.mem_map.mpr ⟨_, List.mem_map_of_mem hvt, by simp [Plan.outer, hd]⟩
    | inner _ hb hinner =>
      have hd := (hstays.resolve_left (by simp [hinner])).not.mp (hP.inner_ne hlo hinner hb)
      exact mem_kept.mpr ⟨hx, by simpa using hd⟩
  | statement hb hs hx =>
    obtain rfl := Option.some.inj (h.block?.symm.trans hb)
    cases h with
    | whole => exact .statement hc hs hx
    | outer _ _ hinner => cases ((hstays.resolve_left (by simp [hinner])).mp rfl).1
    | inner => exact .statement hc hs hx

theorem binds_unique (hf : f.Scoped globals) {pt pt' : Point} (hx : f'.Binds x pt) (hx' : f'.Binds x pt') :
    pt = pt' := by
  obtain ⟨m, j⟩ := pt
  obtain ⟨m', j'⟩ := pt'
  have huniq : ∀ {x q q'}, f.Binds x q → f.Binds x q' → q = q' := fun hq hq' => hf.unique (.inl hq) (.inl hq')
  obtain ⟨l, b, c, h, hb, hs⟩ | ⟨y, hy, hv, rfl⟩ := binds_cases hP hlo hf' hx <;>
    obtain ⟨l', b', c', h', hb', hs'⟩ | ⟨y', hy', hv', rfl⟩ := binds_cases hP hlo hf' hx'
  · obtain ⟨rfl, rfl⟩ := Prod.mk.inj (huniq hb hb')
    obtain hwhole | hs := hs
    · rw [h.eq_of_whole hwhole, h'.eq_of_whole hwhole]
    · obtain hwhole | hs' := hs'
      · rw [h.eq_of_whole hwhole, h'.eq_of_whole hwhole]
      · by_cases hm : m = l
        · rw [hm, hs'.mpr (hs.mp hm)]
        · have hm' : m' ≠ l := fun hm' => hm (hs.mpr (hs'.mp hm'))
          rw [Option.some.inj ((h.inner_of_ne hm).symm.trans (h'.inner_of_ne hm'))]
  · exact absurd hy' (hP.fresh_ne (hlo.binds hb) hv')
  · exact absurd hy (hP.fresh_ne (hlo.binds hb') hv)
  · obtain rfl := hP.freshInj hv hv' (hy.symm.trans hy')
    obtain ⟨_, b, _, hb, hmem⟩ := hv
    obtain ⟨_, b', _, hb', hmem'⟩ := hv'
    obtain ⟨rfl, -⟩ := Prod.mk.inj (huniq (.formal hb (mem_kept.mp hmem).1) (.formal hb' (mem_kept.mp hmem').1))
    rfl

/-! ## Scopes -/

omit hP hlo in
theorem defines_of_given (hgiven : f.Given globals y) : f'.Defines globals y f'.entry :=
  .inr ⟨hgiven.imp_right fun hy => hf'.args ▸ hy, rfl⟩

omit hlo hf' in
/-- A split header is not where control enters. -/
theorem ne_entry (hf : f.Scoped globals) {l' : Label} (hl : P.inner l = some l') : (l, 0) ≠ f.entry := by
  intro heq
  obtain ⟨b, hb, hnil⟩ := hf.start
  obtain rfl : l = f.start := congrArg Prod.fst heq
  exact hP.formals hl hb hnil

variable (hf : f.Scoped globals)

include hf

omit hlo hf' in
/-- The block of the start is left whole. -/
theorem inner_start : P.inner f.start = none := by
  cases hl : P.inner f.start with
  | none => rfl
  | some l' => exact absurd rfl (ne_entry hP hf hl)

/-- A variable is defined where the old block defined it. -/
theorem Place.defines (h : Place P f l b m c) {j : ℕ} (hx : f.Defines globals x (l, j)) (hstays : P.Stays l m x j) :
    f'.Defines globals x (m, j) := by
  obtain hbinds | ⟨hgiven, heq⟩ := hx
  · exact .inl (h.binds hP hlo hf' hbinds hstays)
  · obtain ⟨rfl, rfl⟩ := Prod.mk.inj heq
    rw [h.eq_of_whole (inner_start hP hf)]
    have := defines_of_given hf' hgiven
    rwa [Function.entry, hf'.start] at this

/-- What a path to a point of a new block is in the function: a path to the point of the block it is made of, but in
front of an outer block, where it is one only if the header does not define the variable. -/
structure Seen (P : Plan) (globals : List Var) (f : Function) (y : Var) (l : Label) (pt : Point) : Prop where
  beyond : P.inner l = none ∨ pt.1 ≠ l → Avoids f.Moves f.entry (f.Defines globals y) (l, pt.2)
  before : pt.2 = 0 → ¬ f.Defines globals y (l, 0) → Avoids f.Moves f.entry (f.Defines globals y) (l, 0)

omit hP hlo hf' hf in
/-- A transfer goes where the old one did, or it is a goto that is redirected. -/
theorem mem_labels_transfer {k : Label} (hk : k ∈ (P.transfer f b).labels) :
    k ∈ b.transfer.labels ∨ ∃ dst args d, P.redirected b.label = true ∧ b.transfer = .goto dst args ∧
      P.inner dst = some k ∧ f.block? dst = some d := by
  rw [Plan.transfer] at hk
  split at hk
  · next dst args hgoto =>
    split at hk
    · next hred =>
      rw [Plan.redirect] at hk
      split at hk
      · next dst' d hinner hd =>
        obtain rfl := List.mem_singleton.mp hk
        exact .inr ⟨dst, args, d, hred, hgoto, hinner, hd⟩
      · exact .inl (hgoto ▸ hk)
    · exact .inl (hgoto ▸ hk)
  · exact .inl hk

omit hP hlo hf' hf in
/-- What a goto passes for a formal. -/
theorem mem_of_passed {args : List Var} {vts : List (Var × Ty)}
    (h : List.Forall₂ (fun a vt => P.dropped vt.1 = true → a = vt.1) args vts) (hy : y ∈ vts.map Prod.fst)
    (hd : P.dropped y = true) : y ∈ args := by
  obtain ⟨vt, hvt, rfl⟩ := List.mem_map.mp hy
  obtain ⟨a, ha, heq⟩ := Fold.exists_of_mem_right h hvt
  exact heq hd ▸ ha

/-- A path to the end of a block goes on to the targets of the block that is made of it. -/
theorem seen_transfer {l₀ k : Label} {b₀ : Block} (hl₀ : l₀ ∈ P.labels) (hb₀ : f.block? l₀ = some b₀)
    (hav : Avoids f.Moves f.entry (f.Defines globals y) (l₀, b₀.statements.length))
    (hk : k ∈ (P.transfer f b₀).labels) (hy : ¬ f'.Defines globals y (k, 0)) (h : Place P f l b k c) :
    Seen P globals f y l (k, 0) := by
  have hclosed : ∀ l ∈ b₀.transfer.labels, l ∈ P.labels := fun l hl =>
    hP.closed l₀ hl₀ l (Function.succs_of_block? hb₀ ▸ hl)
  obtain hk | ⟨dst, args, d, hred, hgoto, hinner, hd⟩ := mem_labels_transfer hk
  · -- the target is the block of the old label, whole or outer
    obtain ⟨d, hd⟩ := hf.targets hb₀ k hk
    obtain rfl : l = k := by
      cases hinner : P.inner k with
      | none => exact (h.unique hP hlo (.whole (hclosed k hk) hd hinner)).1
      | some k' => exact (h.unique hP hlo (.outer (hclosed k hk) hd hinner)).1
    have hstep : ¬ f.Defines globals y (l, 0) → Avoids f.Moves f.entry (f.Defines globals y) (l, 0) :=
      hav.step (.transfer hb₀ hk)
    refine ⟨fun hwhole => hstep fun hdef => ?_, fun _ => hstep⟩
    exact hy (h.defines hP hlo hf' hf hdef (.inl (hwhole.resolve_right fun hne => hne rfl)))
  · have hdst : dst ∈ b₀.transfer.labels := by
      rw [hgoto]
      exact List.mem_singleton_self dst
    obtain rfl : l = dst := (h.unique hP hlo (.inner (hclosed dst hdst) hd hinner)).1
    have hnot : ¬ f.Defines globals y (l, 0) := by
      intro hdef
      by_cases hdrop : P.dropped y = true
      · -- the goto passes the formal to itself, so the formal is in scope in front of it
        obtain hbinds | ⟨-, heq⟩ := hdef
        · cases hbinds with
          | formal hd' hmem =>
            obtain rfl := Option.some.inj (hd.symm.trans hd')
            obtain rfl := Function.block?_label hb₀
            have hargs := mem_of_passed (hP.redirected hred hb₀ hgoto hinner hd) hmem hdrop
            exact hf.transfer hb₀ (by rw [hgoto]; exact hargs) hav
        · exact ne_entry hP hf hinner heq
      · refine hy (h.defines hP hlo hf' hf hdef (.inr ?_))
        simp [hdrop, hP.inner_ne hlo hinner hd]
    have hav' := hav.step (.transfer hb₀ hdst) hnot
    exact ⟨fun _ => hav', fun _ _ => hav'⟩

/-- **A path of the new function is a path of the function.** -/
theorem seen {pt : Point} (hav : Avoids f'.Moves f'.entry (f'.Defines globals y) pt) (h : Place P f l b pt.1 c) :
    Seen P globals f y l pt := by
  induction hav generalizing l b c with
  | root hy =>
    obtain ⟨d, hd, -⟩ := hf.start
    have hplace : Place P f f.start d f'.entry.1 (P.whole f d) := by
      rw [Function.entry, hf'.start]
      exact .whole hP.start hd (inner_start hP hf)
    obtain rfl := (h.unique hP hlo hplace).1
    have hav : Avoids f.Moves f.entry (f.Defines globals y) (f.start, 0) :=
      .root fun hdef => hy (h.defines hP hlo hf' hf hdef (.inl (inner_start hP hf)))
    exact ⟨fun _ => hav, fun _ _ => hav⟩
  | @step pt pt' hav hmove hy ih =>
    cases hmove with
    | @statement m c₀ i hc hi =>
      obtain ⟨l₀, b₀, h₀⟩ := (block?_iff hP hlo hf').mp hc
      obtain ⟨rfl, rfl, rfl⟩ := h.unique hP hlo h₀
      refine ⟨fun hin => ?_, fun h0 => absurd h0 (Nat.succ_ne_zero i)⟩
      have hlen : i < b.statements.length := by
        cases h with
        | whole => exact hi
        | outer => exact absurd hi (Nat.not_lt_zero i)
        | inner => exact hi
      refine ((ih h).beyond hin).step (.statement h.block? hlen) fun hdef => ?_
      exact hy (h.defines hP hlo hf' hf hdef (hin.imp_right fun hne => by simp [hne]))
    | @transfer m k c₀ hc hk =>
      obtain ⟨l₀, b₀, h₀⟩ := (block?_iff hP hlo hf').mp hc
      have hseen := ih h₀
      cases h₀ with
      | whole hl₀ hb₀ hinner =>
        exact seen_transfer hP hlo hf' hf hl₀ hb₀ (hseen.beyond (.inl hinner)) hk hy h
      | inner hl₀ hb₀ hinner =>
        exact seen_transfer hP hlo hf' hf hl₀ hb₀ (hseen.beyond (.inr (hP.inner_ne hlo hinner hb₀))) hk hy h
      | outer hl₀ hb₀ hinner =>
        obtain rfl := List.mem_singleton.mp hk
        obtain rfl := (h.unique hP hlo (.inner hl₀ hb₀ hinner)).1
        have hnot : ¬ f.Defines globals y (l, 0) := by
          intro hdef
          by_cases hdrop : P.dropped y = true
          · exact hav.notMem ((Place.outer hl₀ hb₀ hinner).defines hP hlo hf' hf hdef
              (.inr ⟨fun _ => ⟨rfl, hdrop⟩, fun _ => rfl⟩))
          · refine hy (h.defines hP hlo hf' hf hdef (.inr ?_))
            simp [hdrop, hP.inner_ne hlo hinner hb₀]
        have hav' := hseen.before rfl hnot
        exact ⟨fun _ => hav', fun _ _ => hav'⟩

/-- **What was in scope in a block is in scope in the block made of it**, but for the outer blocks. -/
theorem inScope {i : ℕ} (h : Place P f l b m c) (hin : P.inner l = none ∨ m ≠ l)
    (hy : f.InScope globals y (l, i)) : f'.InScope globals y (m, i) :=
  fun hav => hy ((seen hP hlo hf' hf hav h).beyond hin)

omit hP hlo hf' hf in
/-- The transfers use what the old ones did. -/
theorem mem_vars_transfer (hx : x ∈ (P.transfer f b).vars) : x ∈ b.transfer.vars := by
  rw [Plan.transfer] at hx
  split at hx
  · next dst args hgoto =>
    rw [hgoto]
    split at hx
    · rw [Plan.redirect] at hx
      split at hx
      · obtain ⟨avt, havt, rfl⟩ := List.mem_map.mp hx
        exact (List.of_mem_zip (List.mem_filter.mp havt).1).1
      · exact hx
    · exact hx
  · exact hx

/-- A new block goes to new blocks. -/
theorem targets {k : Label} (h : Place P f l b m c) (hk : k ∈ c.transfer.labels) : ∃ d, f'.block? k = some d := by
  have hold : ∀ {l : Label} {b : Block}, l ∈ P.labels → f.block? l = some b → k ∈ (P.transfer f b).labels →
      ∃ d, f'.block? k = some d := by
    intro l b hl hb hk
    have hclosed : ∀ l' ∈ b.transfer.labels, l' ∈ P.labels := fun l' hl' =>
      hP.closed l hl l' (Function.succs_of_block? hb ▸ hl')
    obtain hk | ⟨dst, args, d, -, hgoto, hinner, hd⟩ := mem_labels_transfer hk
    · obtain ⟨d, hd⟩ := hf.targets hb k hk
      cases hinner : P.inner k with
      | none => exact ⟨_, (block?_iff hP hlo hf').mpr ⟨k, d, .whole (hclosed k hk) hd hinner⟩⟩
      | some k' => exact ⟨_, (block?_iff hP hlo hf').mpr ⟨k, d, .outer (hclosed k hk) hd hinner⟩⟩
    · have hdst : dst ∈ b.transfer.labels := by
        rw [hgoto]
        exact List.mem_singleton_self dst
      exact ⟨_, (block?_iff hP hlo hf').mpr ⟨dst, d, .inner (hclosed dst hdst) hd hinner⟩⟩
  cases h with
  | whole hl hb => exact hold hl hb hk
  | inner hl hb => exact hold hl hb hk
  | outer hl hb hinner =>
    obtain rfl := List.mem_singleton.mp hk
    exact ⟨_, (block?_iff hP hlo hf').mpr ⟨l, b, .inner hl hb hinner⟩⟩

omit hf' in
/-- The formals of a new block are different. -/
theorem formals_nodup (h : Place P f l b m c) : (c.args.map Prod.fst).Nodup := by
  have hnodup := hf.formals h.block?
  cases h with
  | whole => exact hnodup
  | inner => exact hnodup.sublist (List.filter_sublist.map _)
  | outer _ hb hinner =>
    have hvaries : ∀ {x}, x ∈ b.args.map Prod.fst → ¬ P.dropped x = true → P.Varies f l x := fun hx hd =>
      ⟨_, b, hinner, hb, mem_kept.mpr ⟨hx, by simpa using hd⟩⟩
    have hold : ∀ {x}, x ∈ b.args.map Prod.fst → x.id < lo := fun hx => hlo.formals b (Function.block?_mem hb) _ hx
    rw [Plan.outerBlock, List.map_map, show Prod.fst ∘ (fun vt : Var × Ty => (P.outer vt.1, vt.2)) =
      P.outer ∘ Prod.fst from rfl, ← List.map_map]
    refine List.Nodup.map_on (fun x hx y hy heq => ?_) hnodup
    simp only [Plan.outer] at heq
    split at heq <;> split at heq
    · exact heq
    · next hd => exact absurd heq (hP.fresh_ne (hold hx) (hvaries hy hd))
    · next hd _ => exact absurd heq.symm (hP.fresh_ne (hold hy) (hvaries hx hd))
    · next hd hd' => exact hP.freshInj (hvaries hx hd) (hvaries hy hd') heq

/-- **The function that a sound plan makes is well scoped.** -/
theorem Makes.scoped (hglobals : ∀ x ∈ globals, x.id < lo) : f'.Scoped globals := by
  have hgiven : ∀ {z}, f'.Given globals z ↔ f.Given globals z := by
    intro z
    rw [Function.Given, Function.Given, hf'.args]
  refine ⟨labels_nodup hP hlo hf', ?_, ?_, hf'.args ▸ hf.args, ?_, ?_, ?_, ?_⟩
  · obtain ⟨d, hd, hnil⟩ := hf.start
    refine ⟨P.whole f d, ?_, hnil⟩
    rw [hf'.start]
    exact (block?_iff hP hlo hf').mpr ⟨_, d, .whole hP.start hd (inner_start hP hf)⟩
  · intro m c hc k hk
    obtain ⟨l, b, h⟩ := (block?_iff hP hlo hf').mp hc
    exact targets hP hlo hf' hf h hk
  · intro m c hc
    obtain ⟨l, b, h⟩ := (block?_iff hP hlo hf').mp hc
    exact formals_nodup hP hlo hf h
  · have hnot : ∀ {z pt}, f'.Binds z pt → ¬ f'.Given globals z := by
      rintro z ⟨m, j⟩ hz hz'
      have hz' := hgiven.mp hz'
      obtain ⟨l, b, c, -, hb, -⟩ | ⟨y, rfl, hv, -⟩ := binds_cases hP hlo hf' hz
      · exact hf.not_given hb hz'
      · exact hP.fresh_ne (hz'.elim (hglobals _) (hlo.args _)) hv rfl
    rintro z pt pt' (hz | ⟨hz, rfl⟩) (hz' | ⟨hz', rfl⟩)
    · exact binds_unique hP hlo hf' hf hz hz'
    · exact absurd hz' (hnot hz)
    · exact absurd hz (hnot hz')
    · rfl
  · intro m c i s z hc hs hz
    obtain ⟨l, b, h⟩ := (block?_iff hP hlo hf').mp hc
    cases h with
    | whole hl hb hinner =>
      exact inScope hP hlo hf' hf (.whole hl hb hinner) (.inl hinner) (hf.statement hb hs hz)
    | outer => cases hs
    | inner hl hb hinner =>
      exact inScope hP hlo hf' hf (.inner hl hb hinner) (.inr (hP.inner_ne hlo hinner hb)) (hf.statement hb hs hz)
  · intro m c z hc hz
    obtain ⟨l, b, h⟩ := (block?_iff hP hlo hf').mp hc
    cases h with
    | whole hl hb hinner =>
      have hscope := hf.transfer hb (mem_vars_transfer (show z ∈ (P.transfer f b).vars from hz))
      exact inScope hP hlo hf' hf (.whole hl hb hinner) (.inl hinner) hscope
    | outer hl hb hinner =>
      -- the outer block passes on its own formals
      obtain ⟨vt, hvt, rfl⟩ := List.mem_map.mp hz
      obtain ⟨hvt, hd⟩ := List.mem_filter.mp hvt
      refine Function.Defines.inScope (.inl (.formal hc (List.mem_map.mpr ⟨_, List.mem_map_of_mem hvt, ?_⟩)))
      simp only [Bool.not_eq_true'] at hd
      simp [Plan.outer, hd]
    | inner hl hb hinner =>
      have hscope := hf.transfer hb (mem_vars_transfer (show z ∈ (P.transfer f b).vars from hz))
      exact inScope hP hlo hf' hf (.inner hl hb hinner) (.inr (hP.inner_ne hlo hinner hb)) hscope

end

end MLton.Ssa.HeaderSplit
