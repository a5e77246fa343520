import MLton.Machinery.Dominance
import MLton.Machinery.Fold
import MLton.Ssa.Tree

/-!
# Ssa/Scopes — where variables are defined and used

A point of a function is a block with the number of its statements that are done.  A variable is in
scope at a point when every path from the start to the point defines it, and a function is well scoped
when every variable has one definition and is in scope wherever it is used — what `checkScopes` checks.
-/

namespace MLton.Ssa

open MLton.Dominance

/-- `Transfer.foreachVar`, as a list. -/
def Transfer.vars : Transfer → List Var
  | bug => []
  | call args _ _ => args
  | case test _ _ => [test]
  | goto _ args => args
  | raise xs => xs
  | ret xs => xs
  | runtime _ args _ => args

/-- A block, and how many of its statements are done. -/
abbrev Point := Label × ℕ

namespace Function

/-- The moves from point to point. -/
inductive Moves (f : Function) : Point → Point → Prop
  | statement {l : Label} {b : Block} {i : ℕ} :
      f.block? l = some b → i < b.statements.length → Moves f (l, i) (l, i + 1)
  | transfer {l l' : Label} {b : Block} :
      f.block? l = some b → l' ∈ b.transfer.labels → Moves f (l, b.statements.length) (l', 0)

/-- The point control enters at. -/
def entry (f : Function) : Point := (f.start, 0)

/-- Control can get to the point. -/
abbrev Reachable (f : Function) : Point → Prop := Relation.ReflTransGen f.Moves f.entry

/-- The move to the point binds the variable: as a formal of the block, or by the last statement. -/
inductive Binds (f : Function) (x : Var) : Point → Prop
  | formal {l : Label} {b : Block} : f.block? l = some b → x ∈ b.args.map Prod.fst → Binds f x (l, 0)
  | statement {l : Label} {b : Block} {i : ℕ} {s : Statement} : f.block? l = some b →
      b.statements[i]? = some s → s.var = some x → Binds f x (l, i + 1)

/-- The variable is a global or an argument. -/
def Given (globals : List Var) (f : Function) (x : Var) : Prop :=
  x ∈ globals ∨ x ∈ f.args.map Prod.fst

/-- The variable is defined from this point on. -/
def Defines (globals : List Var) (f : Function) (x : Var) (pt : Point) : Prop :=
  f.Binds x pt ∨ (f.Given globals x ∧ pt = f.entry)

/-- Every path from the start to the point defines the variable. -/
def InScope (globals : List Var) (f : Function) (x : Var) (pt : Point) : Prop :=
  ¬ Avoids f.Moves f.entry (f.Defines globals x) pt

/-- What `checkScopes` checks of a function. -/
structure Scoped (globals : List Var) (f : Function) : Prop where
  labels : (f.blocks.map Block.label).Nodup
  start : ∃ b, f.block? f.start = some b ∧ b.args = []
  targets : ∀ {l b}, f.block? l = some b → ∀ l' ∈ b.transfer.labels, ∃ b', f.block? l' = some b'
  args : (f.args.map Prod.fst).Nodup
  formals : ∀ {l b}, f.block? l = some b → (b.args.map Prod.fst).Nodup
  unique : ∀ {x pt pt'}, f.Defines globals x pt → f.Defines globals x pt' → pt = pt'
  statement : ∀ {l b i s x}, f.block? l = some b → b.statements[i]? = some s → x ∈ s.exp.vars →
    f.InScope globals x (l, i)
  transfer : ∀ {l b x}, f.block? l = some b → x ∈ b.transfer.vars →
    f.InScope globals x (l, b.statements.length)

variable {globals : List Var} {f : Function} {x : Var} {pt pt' : Point} {l : Label} {b : Block}

theorem Scoped.block?_of_mem (h : f.Scoped globals) (hb : b ∈ f.blocks) :
    f.block? b.label = some b :=
  Fold.find?_key h.labels b hb

/-- A point that control gets to is in its block. -/
theorem Reachable.index_le (h : f.Reachable pt) (hb : f.block? pt.1 = some b) :
    pt.2 ≤ b.statements.length := by
  cases h with
  | refl => exact Nat.zero_le _
  | tail _ hmove =>
    cases hmove with
    | statement hb' hlt =>
      obtain rfl := Option.some.inj (hb.symm.trans hb')
      exact hlt
    | transfer => exact Nat.zero_le _

/-- Every point that control gets to is in a block. -/
theorem Scoped.exists_block? (hf : f.Scoped globals) (hreach : f.Reachable pt) :
    ∃ b, f.block? pt.1 = some b := by
  cases hreach with
  | refl => exact hf.start.imp fun _ h => h.1
  | tail _ hmove =>
    cases hmove with
    | statement hb => exact ⟨_, hb⟩
    | transfer hb hl => exact hf.targets hb _ hl

/-- The start has no formals. -/
theorem Scoped.not_binds_entry (h : f.Scoped globals) : ¬ f.Binds x f.entry := by
  obtain ⟨b, hb, hargs⟩ := h.start
  rintro ⟨hb', hx⟩
  obtain rfl := Option.some.inj (hb.symm.trans hb')
  simp [hargs] at hx

/-- A variable in scope that this move does not define was in scope before. -/
theorem InScope.pred (h : f.InScope globals x pt') (hmove : f.Moves pt pt')
    (hx : ¬ f.Defines globals x pt') : f.InScope globals x pt :=
  fun hav => h (hav.step hmove hx)

theorem InScope.entry (h : f.InScope globals x f.entry) : f.Defines globals x f.entry := by
  by_contra hx
  exact h (.root hx)

theorem Defines.inScope (h : f.Defines globals x pt) : f.InScope globals x pt :=
  fun hav => hav.notMem h

/-- What is bound on the way is no global and no argument. -/
theorem Scoped.not_given (h : f.Scoped globals) (hx : f.Binds x pt) : ¬ f.Given globals x := by
  intro hgiven
  obtain rfl := h.unique (.inl hx) (.inr ⟨hgiven, rfl⟩)
  exact h.not_binds_entry hx

/-- Globals and arguments are in scope everywhere. -/
theorem Given.inScope (h : f.Given globals x) : f.InScope globals x pt := by
  intro hav
  induction hav with
  | root hx => exact hx (.inr ⟨h, rfl⟩)
  | step _ _ _ ih => exact ih

end Function

/-- What `checkScopes` checks of a program: functions, labels and variables have names of their own. -/
structure Program.Scoped (globals : List Var) (p : Program) : Prop where
  functions : ∀ f ∈ p.functions, f.Scoped globals
  names : (p.functions.map Function.name).Nodup
  labels : (p.functions.flatMap fun f => f.blocks.map Block.label).Nodup
  apart : ∀ f ∈ p.functions, ∀ g ∈ p.functions, ∀ {x pt pt'}, f.Binds x pt → g.Binds x pt' → f = g
  args : ∀ f ∈ p.functions, ∀ g ∈ p.functions, ∀ {x pt}, f.Binds x pt → ¬ g.Given globals x
  argsApart : ∀ f ∈ p.functions, ∀ g ∈ p.functions, ∀ {x}, x ∈ f.args.map Prod.fst →
    x ∈ g.args.map Prod.fst → f = g
  globals : ∀ f ∈ p.functions, ∀ {x}, x ∈ f.args.map Prod.fst → x ∉ globals

/-! ## Scopes seen from one block

Where every use is of a global, an argument, or something the same block binds before, no path has to be
looked at. -/

/-- What a block binds, and at which points. -/
def Block.definitions (b : Block) : List (Var × Point) :=
  b.args.map (fun vt => (vt.1, b.label, 0)) ++
    b.statements.zipIdx.flatMap fun si => si.1.var.toList.map fun x => (x, b.label, si.2 + 1)

/-- The variables that a function binds on its way. -/
def Function.definitions (f : Function) : List (Var × Point) := f.blocks.flatMap Block.definitions

/-- The variable is given, or the block binds it in front of this statement. -/
abbrev Block.Sees (given : List Var) (b : Block) (i : ℕ) (x : Var) : Prop :=
  x ∈ given ∨ ∃ d ∈ b.definitions, d.1 = x ∧ d.2.2 ≤ i

/-- A block uses what it sees, and goes to blocks of the function. -/
abbrev Block.LocallyScoped (f : Function) (given : List Var) (b : Block) : Prop :=
  (∀ l ∈ b.transfer.labels, (f.block? l).isSome) ∧
  (∀ si ∈ b.statements.zipIdx, ∀ x ∈ si.1.exp.vars, b.Sees given si.2 x) ∧
  ∀ x ∈ b.transfer.vars, b.Sees given b.statements.length x

/-- The blocks of a function use what they see. -/
abbrev Function.LocallyScoped (globals : List Var) (f : Function) : Prop :=
  (f.block? f.start).map Block.args = some [] ∧
  ∀ b ∈ f.blocks, b.LocallyScoped f (globals ++ f.args.map Prod.fst)

/-- All the variables of the program. -/
def Program.variables (globals : List Var) (p : Program) : List Var :=
  globals ++ p.functions.flatMap fun f => f.args.map Prod.fst ++ f.definitions.map Prod.fst

/-- Everything has a name of its own, and blocks use what they see. -/
abbrev Program.LocallyScoped (globals : List Var) (p : Program) : Prop :=
  (p.functions.map Function.name).Nodup ∧
  (p.functions.flatMap fun f => f.blocks.map Block.label).Nodup ∧
  (p.variables globals).Nodup ∧ ∀ f ∈ p.functions, f.LocallyScoped globals

section Local

variable {globals : List Var} {p : Program} {f g : Function} {b : Block} {x : Var} {pt pt' : Point}
  {l : Label} {i : ℕ}

theorem Function.Binds.mem_definitions (h : f.Binds x pt) : (x, pt) ∈ f.definitions := by
  cases h with
  | @formal l b hb hx =>
    obtain ⟨vt, hvt, rfl⟩ := List.mem_map.mp hx
    obtain rfl := Function.block?_label hb
    exact List.mem_flatMap.mpr ⟨b, Function.block?_mem hb,
      List.mem_append_left _ (List.mem_map.mpr ⟨vt, hvt, rfl⟩)⟩
  | @statement l b i s hb hs hx =>
    obtain rfl := Function.block?_label hb
    refine List.mem_flatMap.mpr ⟨b, Function.block?_mem hb, List.mem_append_right _ ?_⟩
    exact List.mem_flatMap.mpr ⟨(s, i), List.mem_zipIdx_iff_getElem?.mpr hs, by simp [hx]⟩

theorem Block.binds_of_mem (hb : f.block? b.label = some b) (h : (x, pt) ∈ b.definitions) :
    f.Binds x pt ∧ pt.1 = b.label := by
  obtain h | h := List.mem_append.mp h
  · obtain ⟨vt, hvt, heq⟩ := List.mem_map.mp h
    obtain ⟨rfl, rfl⟩ := Prod.mk.inj heq
    exact ⟨.formal hb (List.mem_map_of_mem hvt), rfl⟩
  · obtain ⟨⟨s, i⟩, hsi, h⟩ := List.mem_flatMap.mp h
    obtain ⟨y, hy, heq⟩ := List.mem_map.mp h
    obtain ⟨rfl, rfl⟩ := Prod.mk.inj heq
    exact ⟨.statement hb (List.mem_zipIdx_iff_getElem?.mp hsi) (by simpa using hy), rfl⟩

/-- What a block binds stays in scope to its end. -/
theorem Function.Defines.inScope_later (h : f.Defines globals x (l, i)) :
    ∀ n, f.InScope globals x (l, i + n)
  | 0 => h.inScope
  | n + 1 => fun hav => by
    cases hav with
    | step hav hmove _ =>
      cases hmove with
      | statement => exact h.inScope_later n hav

theorem Program.LocallyScoped.binds_unique (h : p.LocallyScoped globals) (hf : f ∈ p.functions)
    (hx : f.Binds x pt) (hx' : f.Binds x pt') : pt = pt' := by
  have hnodup := (List.nodup_flatMap.mp (List.nodup_append.mp h.2.2.1).2.1).1 f hf
  exact congrArg Prod.snd (List.inj_on_of_nodup_map (List.nodup_append.mp hnodup).2.1
    hx.mem_definitions hx'.mem_definitions rfl)

theorem Program.LocallyScoped.function_unique (h : p.LocallyScoped globals) (hf : f ∈ p.functions)
    (hg : g ∈ p.functions) (hx : x ∈ f.args.map Prod.fst ++ f.definitions.map Prod.fst)
    (hx' : x ∈ g.args.map Prod.fst ++ g.definitions.map Prod.fst) : f = g :=
  Fold.eq_of_nodup_flatMap (List.nodup_append.mp h.2.2.1).2.1 hf hg hx hx'

theorem Function.Binds.mem_vars (h : f.Binds x pt) :
    x ∈ f.args.map Prod.fst ++ f.definitions.map Prod.fst :=
  List.mem_append_right _ (List.mem_map.mpr ⟨_, h.mem_definitions, rfl⟩)

theorem Program.LocallyScoped.not_given (h : p.LocallyScoped globals) (hf : f ∈ p.functions)
    (hg : g ∈ p.functions) (hx : f.Binds x pt) : ¬ g.Given globals x := by
  have hnodup := List.nodup_append.mp h.2.2.1
  rintro (hglobal | harg)
  · exact hnodup.2.2 x hglobal x (List.mem_flatMap.mpr ⟨f, hf, hx.mem_vars⟩) rfl
  · obtain rfl := h.function_unique hf hg hx.mem_vars (List.mem_append_left _ harg)
    exact (List.nodup_append.mp ((List.nodup_flatMap.mp hnodup.2.1).1 f hf)).2.2 x harg x
      (List.mem_map.mpr ⟨_, hx.mem_definitions, rfl⟩) rfl

/-- **A program that is scoped block by block is well scoped.** -/
theorem Program.LocallyScoped.scoped (h : p.LocallyScoped globals) : p.Scoped globals := by
  obtain ⟨hnames, hlabels, hvars, hlocal⟩ := id h
  have hnodup := List.nodup_append.mp hvars
  have hfun := fun f hf => List.nodup_append.mp ((List.nodup_flatMap.mp hnodup.2.1).1 f hf)
  have hblocks := fun f hf => (List.nodup_flatMap.mp hlabels).1 f hf
  refine ⟨fun f hf => ?_, hnames, hlabels, fun f hf g hg x pt pt' hx hx' => ?_,
    fun f hf g hg x pt hx => h.not_given hf hg hx, fun f hf g hg x hx hx' => ?_,
    fun f hf x hx hglobal => ?_⟩
  · obtain ⟨hstart, hb⟩ := hlocal f hf
    have hfind : ∀ {b}, b ∈ f.blocks → f.block? b.label = some b :=
      fun {b} hb => Fold.find?_key (hblocks f hf) b hb
    have hsees : ∀ {b i x}, b ∈ f.blocks → b.Sees (globals ++ f.args.map Prod.fst) i x →
        f.InScope globals x (b.label, i) := by
      rintro b i x hb (hgiven | ⟨⟨y, l, j⟩, hd, rfl, hj⟩)
      · exact Function.Given.inScope (List.mem_append.mp hgiven)
      · obtain ⟨hbinds, rfl⟩ := Block.binds_of_mem (hfind hb) hd
        obtain ⟨n, rfl⟩ := Nat.exists_eq_add_of_le hj
        exact Function.Defines.inScope_later (.inl hbinds) n
    refine ⟨hblocks f hf, ?_, ?_, (hfun f hf).1, ?_, ?_, ?_, ?_⟩
    · obtain ⟨b, hb, hargs⟩ := Option.map_eq_some_iff.mp hstart
      exact ⟨b, hb, hargs⟩
    · intro l b hbl l' hl'
      exact Option.isSome_iff_exists.mp ((hb b (Function.block?_mem hbl)).1 l' hl')
    · intro l b hbl
      have hdefs := (hfun f hf).2.1
      rw [Function.definitions, List.map_flatMap] at hdefs
      have hdefs := (List.nodup_flatMap.mp hdefs).1 b (Function.block?_mem hbl)
      rw [Block.definitions, List.map_append, List.map_map] at hdefs
      exact (List.nodup_append.mp hdefs).1
    · rintro x pt pt' (hx | ⟨hx, rfl⟩) (hx' | ⟨hx', rfl⟩)
      · exact h.binds_unique hf hx hx'
      · exact absurd hx' (h.not_given hf hf hx)
      · exact absurd hx (h.not_given hf hf hx')
      · rfl
    · intro l b i s x hbl hs hx
      obtain rfl := Function.block?_label hbl
      have hmem := Function.block?_mem hbl
      exact hsees hmem ((hb b hmem).2.1 (s, i) (List.mem_zipIdx_iff_getElem?.mpr hs) x hx)
    · intro l b x hbl hx
      obtain rfl := Function.block?_label hbl
      have hmem := Function.block?_mem hbl
      exact hsees hmem ((hb b hmem).2.2 x hx)
  · exact h.function_unique hf hg hx.mem_vars hx'.mem_vars
  · exact h.function_unique hf hg (List.mem_append_left _ hx) (List.mem_append_left _ hx')
  · exact hnodup.2.2 x hglobal x (List.mem_flatMap.mpr ⟨f, hf, List.mem_append_left _ hx⟩) rfl

end Local

end MLton.Ssa
