import MLton.Ssa.Defined
import MLton.Ssa.InPlace
import MLton.Ssa.WordVals

/-!
# Ssa/CombineConversions — conversions of conversions

Nested conversions between word sizes become one where the sizes and signs allow it.  Variables that a
conversion binds are marked with a conversion and the variable it is applied to, in the order of a
depth-first search; then the marks are put in place of the right-hand sides.
-/

namespace MLton.Ssa.CombineConversions

/-- The sizes and the sign of a `Word_extdToWord`. -/
structure Conversion where
  source : ℕ
  target : ℕ
  signed : Bool
deriving DecidableEq, Repr

/-- The conversions that variables stand for, with what they are applied to. -/
abbrev Marks := Var → Option (Conversion × Var)

/-- `set`, of `Property.getSetOnce`: it raises when the variable is marked already. -/
def Marks.set (get : Marks) (x : Var) (m : Conversion × Var) : Option Marks :=
  if (get x).isNone then some (Function.update get x (some m)) else none

/-- `rules`.  The number bounds the conversions it passes. -/
def rules (get : Marks) (x₃ : Var) : ℕ → Conversion × Var → Option Marks
  | 0, _ => none
  | n + 1, (conversion, x₂) =>
    let stop := get.set x₃ (conversion, x₂)
    match get x₂ with
    | none => stop
    | some (prev, x₁) =>
      let loop := rules get x₃ n (⟨prev.source, conversion.target, prev.signed⟩, x₁)
      if prev.source ≤ conversion.target ∧ conversion.target ≤ conversion.source then loop
      else if prev.source < conversion.source ∧ conversion.source < conversion.target ∧
          (!prev.signed || conversion.signed) then loop
      else if conversion.target ≤ prev.source ∧ conversion.target ≤ conversion.source then loop
      else stop

/-- `markStatement`. -/
def markStatement (n : ℕ) (get : Marks) (stmt : Statement) : Option Marks :=
  match stmt.exp, stmt.var with
  | .primApp (.wordExtdToWord source target signed) _ _ args, some v =>
    args.head?.bind fun x => rules get v n (⟨source, target, signed⟩, x)
  | _, _ => some get

/-- `mapStatement`. -/
def mapStatement (get : Marks) (stmt : Statement) : Statement :=
  match stmt.var.bind get with
  | some (prim, x₂) =>
    { stmt with
      exp := if prim.source = prim.target then .var x₂
        else .primApp (.wordExtdToWord prim.source prim.target prim.signed) [] none [x₂] }
  | none => stmt

/-- `markBlock`, of the block that a label names. -/
def markBlock (f : Function) (get : Option Marks) (l : Label) : Option Marks := do
  let b ← f.block? l
  b.statements.foldlM (markStatement (f.definitions.length + 1)) (← get)

/-- `Function.dfs`, with `markBlock`. -/
def mark (f : Function) (get : Marks) : Option Marks :=
  (Dfs.search f.succs (markBlock f) (fun get _ => get) (f.labels.length + 1) (some get) f.start).2

/-- `mapBlock`. -/
def mapBlock (get : Marks) (b : Block) : Block :=
  { b with statements := b.statements.map (mapStatement get) }

/-- The function with its statements mapped. -/
def mapFunction (get : Marks) (f : Function) : Function := { f with blocks := f.blocks.map (mapBlock get) }

/-- One function after the other: what they become before they go to `shrink`, and the last marks. -/
def doitFunctions : List Function → Marks → Option (List Function × Marks)
  | [], get => some ([], get)
  | f :: fs, get => do
    let get ← mark f get
    let (fs, get') ← doitFunctions fs get
    pure (mapFunction get f :: fs, get')

/-- `transform`, with `shrinkFunction` for the functions. -/
def transform (shrink : Function → Function) (p : Program) : Option Program := do
  let (functions, _) ← doitFunctions p.functions fun _ => none
  pure { p with functions := (functions.map shrink).reverse }

end MLton.Ssa.CombineConversions

/-!
## Combined conversions have the values of the chains

A mark sums up a chain of conversions (`Sums`).  Wherever the operand of the first conversion is in scope,
so is that of the sum, and the sum has the value of the conversion (`Sums.apply`): the definitions of the
chain still hold there.  So the rewritten program does what the program does, with every variable of every
activation at the same value (`transform_preserves`).
-/

namespace MLton.Ssa.CombineConversions

open MLton.Atoms.WordX MLton.Effects MLton.Ssa.Function

/-! ## Values -/

/-- The value of a conversion, of a word of its source size. -/
def Conversion.apply (c : Conversion) (v : Val) : Option Val :=
  (v.asWord c.source).map fun x => .word c.target (extdBits c.signed c.target x)

/-- The condition under which `rules` goes on. -/
def Combines (prev c : Conversion) : Prop :=
  prev.source ≤ c.target ∧ c.target ≤ c.source ∨
    (prev.source < c.source ∧ c.source < c.target ∧ (prev.signed = false ∨ c.signed = true)) ∨
    c.target ≤ prev.source ∧ c.target ≤ c.source

/-- **Two conversions that combine** have the value of the combined one. -/
theorem Combines.apply {prev c : Conversion} {u v w : Val} (h : Combines prev c)
    (hv : prev.apply u = some v) (hw : c.apply v = some w) :
    Conversion.apply ⟨prev.source, c.target, prev.signed⟩ u = some w := by
  obtain ⟨x, hx, rfl⟩ := Option.map_eq_some_iff.mp hv
  obtain ⟨y, hy, rfl⟩ := Option.map_eq_some_iff.mp hw
  obtain ⟨n, m, signed⟩ := prev
  obtain ⟨m', k, signed'⟩ := c
  obtain rfl : m = m' := Val.size_of_asWord hy
  obtain rfl := Option.some.inj (Val.asWord_word.symm.trans hy)
  exact Option.map_eq_some_iff.mpr ⟨x, hx, by rw [extdBits_extdBits signed signed' x h]⟩

/-- A conversion that changes neither size nor value. -/
theorem Conversion.apply_of_eq {c : Conversion} {u v : Val} (hc : c.source = c.target)
    (h : c.apply u = some v) : u = v := by
  obtain ⟨n, m, signed⟩ := c
  obtain rfl : n = m := hc
  obtain ⟨x, hx, rfl⟩ := Option.map_eq_some_iff.mp h
  have hself : extdBits signed n x = x := by cases signed <;> simp [extdBits]
  rw [hself]
  exact Val.asWord_eq_some.mp hx

/-- The value of a conversion of a variable. -/
def value (ρ : Env) (m : Conversion × Var) : Option Val := (ρ m.2).bind m.1.apply

/-- Conversions compute what they are to compute, and the world does not see them. -/
structure Converts (W : World) : Prop where
  prim : ∀ {t source target signed targs mode vs}, W.prim t (.wordExtdToWord source target signed) targs mode vs =
    match vs with
    | [v] => Conversion.apply ⟨source, target, signed⟩ v
    | _ => none
  blind : W.Blind fun
    | .prim (.wordExtdToWord _ _ _) _ _ _ => true
    | _ => false

/-! ## Chains -/

/-- A right-hand side is a conversion. -/
def Converted (e : Exp) (m : Conversion × Var) : Prop :=
  ∃ targs mode args, e = .primApp (.wordExtdToWord m.1.source m.1.target m.1.signed) targs mode (m.2 :: args)

/-- The conversion sums up a chain of conversions that starts with the first one. -/
inductive Sums (f : Function) : Conversion × Var → Conversion × Var → Prop
  | stop {m} : Sums f m m
  | loop {c x e m' prev q m} : f.DefinedAs x e q → Converted e m' → Sums f m' prev → Combines prev.1 c →
      Sums f (⟨prev.1.source, c.target, prev.1.signed⟩, prev.2) m → Sums f (c, x) m

variable {W : World} {globals : List Var} {G : Env} {p : Program} {f : Function} {fr : Frame}
  {m m' : Conversion × Var} {e : Exp} {pt q : Point}

theorem Converted.mem_vars (h : Converted e m) : m.2 ∈ e.vars := by
  obtain ⟨targs, mode, args, rfl⟩ := h
  exact List.mem_cons_self ..

/-- What a sum is of is in scope where the operand of the chain is. -/
theorem Sums.inScope (hf : f.Scoped globals) (h : Sums f m m') (hm : f.InScope globals m.2 pt) :
    f.InScope globals m'.2 pt := by
  induction h with
  | stop => exact hm
  | loop hdef he _ _ _ ih ih' =>
    exact ih' (ih (hf.inScope_trans hdef hm (hf.inScope_of_definedAs hdef he.mem_vars)))

/-- The value of a conversion that has one. -/
theorem Converted.eval (hW : Converts W) {ρ : Env} {t t' : Trace} {v : Val} (he : Converted e m)
    (h : e.eval W ρ t = (.value v, t')) : value ρ m = some v := by
  obtain ⟨targs, mode, args, rfl⟩ := he
  simp only [Exp.eval] at h
  split at h
  · next vs hvs =>
    obtain ⟨u, us, rfl, hu, -⟩ := Env.all_cons.mp hvs
    simp only [World.primApp, hW.prim] at h
    cases us with
    | nil =>
      cases hc : Conversion.apply ⟨m.1.source, m.1.target, m.1.signed⟩ u with
      | none => simp [hc] at h
      | some w =>
        obtain rfl : w = v := by simpa [hc] using congrArg Prod.fst h
        simp only [value, hu, Option.bind_some]
        exact hc
    | cons => simp at h
  · simp at h

/-- **The sum of a chain has its value.** -/
theorem Sums.apply (hscoped : p.Scoped globals) (hW : Converts W) (hfr : fr.Defined W globals p)
    (h : Sums fr.func m m') (hm : fr.func.InScope globals m.2 (fr.label, fr.index)) {v : Val}
    (hv : value fr.env m = some v) : value fr.env m' = some v := by
  have hf := hscoped.functions _ hfr.func
  induction h generalizing v with
  | stop => exact hv
  | @loop c x e m₁ prev q m₂ hdef he hsum hcomb _ ih ih' =>
    have hm₁ := hf.inScope_trans hdef hm (hf.inScope_of_definedAs hdef he.mem_vars)
    obtain ⟨u, t, t', hu, heval⟩ := hfr.defined hdef hm
    have hprev := ih hm₁ (he.eval hW heval)
    obtain ⟨w, hw, hwu⟩ := Option.bind_eq_some_iff.mp hprev
    obtain ⟨u', hu', huv⟩ := Option.bind_eq_some_iff.mp hv
    obtain rfl := Option.some.inj (hu.symm.trans hu')
    have hscope := hsum.inScope hf hm₁
    exact ih' hscope (Option.bind_eq_some_iff.mpr ⟨w, hw, hcomb.apply hwu huv⟩)

/-! ## The marks -/

/-- Conversions have one operand, as the type checker sees to. -/
def Unary (p : Program) : Prop :=
  ∀ f ∈ p.functions, ∀ b ∈ f.blocks, ∀ s ∈ b.statements, ∀ source target signed targs mode args,
    s.exp = .primApp (.wordExtdToWord source target signed) targs mode args → args.length = 1

/-- Every mark sums up the conversion that the variable is defined by. -/
def Marks.Sound (p : Program) (get : Marks) : Prop :=
  ∀ {x m}, get x = some m → ∃ f ∈ p.functions, ∃ q e m₀, f.DefinedAs x e q ∧ f.Reachable q ∧
    Converted e m₀ ∧ Sums f m₀ m

section Rank

open Classical in
/-- How many of the variables that the function binds are in scope. -/
noncomputable def rank (globals : List Var) (f : Function) (pt : Point) : ℕ :=
  ((f.definitions.map Prod.fst).toFinset.filter (f.InScope globals · pt)).card

theorem rank_le : rank globals f pt ≤ f.definitions.length := by
  classical
  refine (Finset.card_filter_le _ _).trans ((List.toFinset_card_le _).trans ?_)
  rw [List.length_map]

/-- Less is in scope where a variable is defined than where it is in scope. -/
theorem rank_lt {x : Var} (hf : f.Scoped globals) (hq : f.Reachable q) (hdef : f.DefinedAs x e q)
    (hx : f.InScope globals x pt) : rank globals f q < rank globals f pt := by
  classical
  obtain ⟨l, i⟩ := q
  refine Finset.card_lt_card (Finset.ssubset_iff_subset_ne.mpr ⟨fun z hz => ?_, fun heq => ?_⟩)
  · rw [Finset.mem_filter] at hz ⊢
    exact ⟨hz.1, hf.inScope_trans hdef hx hz.2⟩
  · have hmem : x ∈ (f.definitions.map Prod.fst).toFinset :=
      List.mem_toFinset.mpr (List.mem_map.mpr ⟨_, hdef.binds.mem_definitions, rfl⟩)
    have hxq := (Finset.ext_iff.mp heq x).mpr (Finset.mem_filter.mpr ⟨hmem, hx⟩)
    exact hf.not_inScope_before (hq.tail hdef.moves) hdef.binds (Finset.mem_filter.mp hxq).2

end Rank

theorem Marks.set_eq {get : Marks} {x : Var} (hx : get x = none) :
    get.set x m = some (Function.update get x (some m)) := by
  simp [Marks.set, hx]

instance (prev c : Conversion) : Decidable (Combines prev c) := inferInstanceAs (Decidable (_ ∨ _ ∨ _))

theorem rules_succ (get : Marks) (x : Var) (n : ℕ) (m : Conversion × Var) : rules get x (n + 1) m =
    match get m.2 with
    | none => get.set x m
    | some prev =>
      if Combines prev.1 m.1 then rules get x n (⟨prev.1.source, m.1.target, prev.1.signed⟩, prev.2)
      else get.set x m := by
  obtain ⟨c, x₂⟩ := m
  simp only [rules, Combines]
  cases get x₂ with
  | none => rfl
  | some prev =>
    simp only [Bool.or_eq_true, Bool.not_eq_true']
    split_ifs <;> first | rfl | grind

/-- **`rules` marks the variable with a sum of its conversion**, and the fuel suffices. -/
theorem rules_spec (hscoped : p.Scoped globals) {get : Marks} (hget : get.Sound p) (hf : f ∈ p.functions)
    {x : Var} (hx : get x = none) {n : ℕ} {m : Conversion × Var} {pt : Point} (hpt : f.Reachable pt)
    (hm : f.InScope globals m.2 pt) (hn : rank globals f pt < n) :
    ∃ m', rules get x n m = some (Function.update get x (some m')) ∧ Sums f m m' := by
  induction n generalizing m pt with
  | zero => omega
  | succ n ih =>
    rw [rules_succ]
    cases hprev : get m.2 with
    | none => exact ⟨m, Marks.set_eq hx, .stop⟩
    | some prev =>
      obtain ⟨g, hg, q, e, m₀, hdef, hq, he, hsum⟩ := hget hprev
      obtain rfl := hscoped.eq_of_definedAs hf hg hpt hm hdef
      have hgs := hscoped.functions g hg
      by_cases hcomb : Combines prev.1 m.1
      · have hm₀ := hgs.inScope_of_definedAs hdef he.mem_vars
        have hscope := hsum.inScope hgs hm₀
        have hlt := rank_lt hgs hq hdef hm
        obtain ⟨m', hrules, hsums⟩ := ih (m := (⟨prev.1.source, m.1.target, prev.1.signed⟩, prev.2)) hq
          hscope (by omega)
        exact ⟨m', by simpa only [hcomb, if_true] using hrules, .loop hdef he hsum hcomb hsums⟩
      · exact ⟨m, by simpa only [hcomb, if_false] using Marks.set_eq hx, .stop⟩

/-- Only these variables are marked. -/
def Marks.Within (get : Marks) (D : Var → Prop) : Prop := ∀ {x}, get x ≠ none → D x

/-- Marks that are as they should be, on some of the variables. -/
structure Marks.Good (p : Program) (D : Var → Prop) (get : Marks) : Prop where
  sound : get.Sound p
  within : get.Within D

theorem Marks.Good.mono {D D' : Var → Prop} {get : Marks} (h : get.Good p D) (hD : ∀ x, D x → D' x) :
    get.Good p D' :=
  ⟨h.sound, fun {x} hx => hD x (h.within hx)⟩

section Marking

variable (hscoped : p.Scoped globals) (hunary : Unary p) (hf : f ∈ p.functions) {D : Var → Prop}
  {get : Marks} {l : Label} {b : Block}

include hscoped hunary hf

/-- **A statement** gets its mark. -/
theorem markStatement_spec {i : ℕ} {s : Statement} (hget : get.Good p D) (hb : f.block? l = some b)
    (hs : b.statements[i]? = some s) (hpt : f.Reachable (l, i)) (hnew : ∀ x, s.var = some x → ¬ D x) :
    ∃ get', markStatement (f.definitions.length + 1) get s = some get' ∧
      get'.Good p fun x => D x ∨ s.var = some x := by
  have hsame : get.Good p fun x => D x ∨ s.var = some x := hget.mono fun _ => .inl
  unfold markStatement
  split
  · next source target signed targs mode args v he hv =>
    have hlen := hunary f hf b (block?_mem hb) s (List.mem_of_getElem? hs) _ _ _ _ _ _ he
    obtain ⟨x, rfl⟩ := List.length_eq_one_iff.mp hlen
    have hdef := DefinedAs.of_statement hb hs hv
    have hconv : Converted s.exp (⟨source, target, signed⟩, x) := ⟨targs, mode, [], he⟩
    have hx := (hscoped.functions f hf).inScope_of_definedAs hdef hconv.mem_vars
    have hnone : get v = none := by_contra fun h => hnew v hv (hget.within h)
    obtain ⟨m, hrules, hsums⟩ := rules_spec hscoped hget.sound hf hnone hpt hx (Nat.lt_succ_of_le rank_le)
    refine ⟨_, hrules, fun {z m'} hz => ?_, fun {z} hz => ?_⟩
    · by_cases hzv : z = v
      · subst hzv
        rw [Function.update_self] at hz
        exact ⟨f, hf, _, _, _, hdef, hpt, hconv, Option.some.inj hz ▸ hsums⟩
      · rw [Function.update_of_ne hzv] at hz
        exact hget.sound hz
    · by_cases hzv : z = v
      · exact .inr (hzv ▸ hv)
      · rw [Function.update_of_ne hzv] at hz
        exact .inl (hget.within hz)
  · exact ⟨get, rfl, hsame⟩

/-- The statements of a block, from one of them on. -/
theorem markStatements_spec (hb : f.block? l = some b) (hl : f.Reachable (l, 0))
    (hnew : ∀ x pt, f.Binds x pt → pt.1 = l → ¬ D x) :
    ∀ {sts : List Statement} {i : ℕ} {get : Marks}, b.statements.drop i = sts →
      get.Good p (fun x => D x ∨ ∃ j < i, f.Binds x (l, j + 1)) →
      ∃ get', sts.foldlM (markStatement (f.definitions.length + 1)) get = some get' ∧
        get'.Good p fun x => D x ∨ ∃ pt, f.Binds x pt ∧ pt.1 = l
  | [], i, get, _, hget => ⟨get, rfl, hget.mono fun x hx => hx.imp_right fun ⟨j, _, hj⟩ => ⟨_, hj, rfl⟩⟩
  | s :: sts, i, get, hdrop, hget => by
    have hs : b.statements[i]? = some s := by
      rw [← List.head?_drop, hdrop]
      rfl
    have hlt := (List.getElem?_eq_some_iff.mp hs).1
    have hfs := hscoped.functions f hf
    have hpt := (Function.reachable_iff hb hlt.le).mpr ((Function.reachable_iff hb (Nat.zero_le _)).mp hl)
    obtain ⟨get', hmark, hget'⟩ := markStatement_spec hscoped hunary hf hget hb hs hpt fun x hx => by
      have hbinds : f.Binds x (l, i + 1) := .statement hb hs hx
      rintro (hD | ⟨j, hj, hbinds'⟩)
      · exact hnew x _ hbinds rfl hD
      · have := congrArg Prod.snd (hfs.unique (.inl hbinds) (.inl hbinds'))
        simp only at this
        omega
    have hrest : b.statements.drop (i + 1) = sts := by
      rw [← List.tail_drop, hdrop]
      rfl
    obtain ⟨get'', hmarks, hget''⟩ := markStatements_spec hb hl hnew (i := i + 1) hrest
      (hget'.mono fun x hx => by
        obtain (hD | ⟨j, hj, hbinds⟩) | hx := hx
        · exact .inl hD
        · exact .inr ⟨j, by omega, hbinds⟩
        · exact .inr ⟨i, by omega, .statement hb hs hx⟩)
    exact ⟨get'', by simp [hmark, hmarks], hget''⟩

/-- What the search keeps: the blocks visited are in reach, and what they bind may be marked. -/
def Searched (p : Program) (f : Function) (D : Var → Prop) (vis : List Label) (o : Option Marks) : Prop :=
  (∀ u ∈ vis, f.Visited u) ∧ ∃ get, o = some get ∧
    get.Good p fun x => D x ∨ ∃ pt, f.Binds x pt ∧ pt.1 ∈ vis

/-- **The search** marks what the blocks in reach bind. -/
theorem mark_spec (hget : get.Good p D) (hnew : ∀ x pt, f.Binds x pt → ¬ D x) :
    ∃ get', mark f get = some get' ∧ get'.Good p fun x => D x ∨ ∃ pt, f.Binds x pt := by
  have hfs := hscoped.functions f hf
  have hinv : Searched p f D _ (mark f get) := Dfs.search_inv (I := Searched p f D)
    ⟨by simp, get, rfl, hget.mono fun _ => .inl⟩
    (fun vis o v ⟨hvis, get₁, ho, hget₁⟩ hv => by
      have hvv : f.Visited v := by
        obtain rfl | ⟨u, hu, huv⟩ := hv.2
        · exact .refl
        · exact (hvis u hu).tail (edge_controlFlow.mpr huv)
      obtain ⟨b, hb⟩ := hfs.exists_block hvv
      obtain ⟨get₂, hmark, hget₂⟩ := markStatements_spec hscoped hunary hf hb
        ((Function.reachable_iff hb (Nat.zero_le _)).mpr hvv)
        (D := fun x => D x ∨ ∃ pt, f.Binds x pt ∧ pt.1 ∈ vis) (fun x pt hx hpt => by
          rintro (hD | ⟨pt', hx', hpt'⟩)
          · exact hnew x pt hx hD
          · exact hv.1 (hpt ▸ hfs.unique (.inl hx) (.inl hx') ▸ hpt'))
        (i := 0) rfl (hget₁.mono fun _ => .inl)
      refine ⟨?_, get₂, ?_, hget₂.mono fun x hx => ?_⟩
      · rintro u (_ | ⟨_, hu⟩)
        exacts [hvv, hvis u hu]
      · simp only [markBlock, hb, ho]
        exact hmark
      · obtain (hD | ⟨pt, hx, hpt⟩) | ⟨pt, hx, hpt⟩ := hx
        · exact .inl hD
        · exact .inr ⟨pt, hx, List.mem_cons_of_mem _ hpt⟩
        · exact .inr ⟨pt, hx, hpt ▸ List.mem_cons_self ..⟩)
    (fun _ _ _ h _ => h)
  obtain ⟨-, get', hmark, hget'⟩ := hinv
  exact ⟨get', hmark, hget'.mono fun x hx => hx.imp_right fun ⟨pt, hx, _⟩ => ⟨pt, hx⟩⟩

end Marking

/-! ## The rewritten functions -/

/-- A function, and what becomes of it. -/
def Mapped (p : Program) (f f' : Function) : Prop := ∃ get : Marks, get.Sound p ∧ f' = mapFunction get f

theorem mapStatement_var {get : Marks} {s : Statement} : (mapStatement get s).var = s.var := by
  unfold mapStatement
  split <;> rfl

theorem block?_mapFunction {get : Marks} {l : Label} :
    (mapFunction get f).block? l = (f.block? l).map (mapBlock get) :=
  Function.block?_map (g := mapBlock get) rfl (fun _ => rfl) l

theorem Mapped.alike {f' : Function} (h : Mapped p f f') : f.Alike f' := by
  obtain ⟨get, -, rfl⟩ := h
  refine ⟨rfl, rfl, fun l => ?_⟩
  rw [block?_mapFunction]
  cases f.block? l with
  | none => exact .none
  | some b =>
    exact .some ⟨rfl, rfl, List.forall₂_map_right_iff.mpr (List.forall₂_same.mpr fun s _ => mapStatement_var)⟩

theorem Mapped.name {f' : Function} (h : Mapped p f f') : f'.name = f.name := by
  obtain ⟨get, -, rfl⟩ := h
  rfl

/-- **Every function is mapped by marks as they should be.** -/
theorem doitFunctions_spec (hscoped : p.Scoped globals) (hunary : Unary p) :
    ∀ (fs done : List Function) (get : Marks), p.functions = done ++ fs →
      get.Good p (fun x => ∃ g ∈ done, ∃ pt, g.Binds x pt) →
      ∃ fs' get', doitFunctions fs get = some (fs', get') ∧ List.Forall₂ (Mapped p) fs fs'
  | [], _, get, _, _ => ⟨[], get, rfl, .nil⟩
  | f :: fs, done, get, hfs, hget => by
    have hf : f ∈ p.functions := hfs ▸ List.mem_append_right _ (List.mem_cons_self ..)
    have hnot : f ∉ done := fun hmem => by
      have hnames := hfs ▸ hscoped.names
      rw [List.map_append, List.map_cons] at hnames
      exact (List.nodup_append.mp hnames).2.2 _ (List.mem_map_of_mem hmem) _ (List.mem_cons_self ..) rfl
    obtain ⟨get₁, hmark, hget₁⟩ := mark_spec hscoped hunary hf hget fun x pt hx ⟨g, hg, pt', hx'⟩ =>
      hnot (hscoped.apart f hf g (hfs ▸ List.mem_append_left _ hg) hx hx' ▸ hg)
    obtain ⟨fs', get₂, hdoit, hmapped⟩ := doitFunctions_spec hscoped hunary fs
      (done ++ [f]) get₁ (by simpa using hfs) (hget₁.mono fun x hx => by
        obtain ⟨g, hg, hx⟩ | hx := hx
        · exact ⟨g, List.mem_append_left _ hg, hx⟩
        · exact ⟨f, by simp, hx⟩)
    exact ⟨mapFunction get₁ f :: fs', get₂, by simp [doitFunctions, hmark, hdoit],
      .cons ⟨get₁, hget₁.sound, rfl⟩ hmapped⟩

/-- The rewritten program, before its functions are shrunk. -/
def rewritten (p : Program) (fs : List Function) : Program := { p with functions := fs.reverse }

theorem function?_rewritten (hscoped : p.Scoped globals) {fs : List Function}
    (hfs : List.Forall₂ (Mapped p) p.functions fs) (func : Func) :
    Option.Rel (Mapped p) (p.function? func) ((rewritten p fs).function? func) := by
  have hrel : Option.Rel (Mapped p) (p.functions.reverse.find? (·.name = func))
      (fs.reverse.find? (·.name = func)) :=
    Fold.rel_find? (fun h => h.name) (List.forall₂_reverse_iff.mpr hfs) func
  rwa [Fold.find?_key_reverse hscoped.names] at hrel

/-- Functions of one name. -/
def Paired (p p' : Program) (f f' : Function) : Prop :=
  ∃ func, p.function? func = some f ∧ p'.function? func = some f'

theorem Paired.mapped (hscoped : p.Scoped globals) {fs : List Function}
    (hfs : List.Forall₂ (Mapped p) p.functions fs) {f' : Function}
    (h : Paired p (rewritten p fs) f f') : Mapped p f f' := by
  obtain ⟨func, hf, hf'⟩ := h
  have hrel := function?_rewritten hscoped hfs func
  rw [hf, hf'] at hrel
  cases hrel with
  | some h => exact h

theorem alike_rewritten (hscoped : p.Scoped globals) {fs : List Function}
    (hfs : List.Forall₂ (Mapped p) p.functions fs) :
    p.Alike (Paired p (rewritten p fs)) (rewritten p fs) where
  main := rfl
  functions func := by
    have hrel := function?_rewritten hscoped hfs func
    cases hf : p.function? func <;> cases hf' : (rewritten p fs).function? func <;> rw [hf, hf'] at hrel <;>
      cases hrel
    · exact .none
    · exact .some ⟨func, hf, hf'⟩
  alike h := (h.mapped hscoped hfs).alike

/-! ## Runs -/

/-- The events of conversions. -/
abbrev isConversion : Event → Bool
  | .prim (.wordExtdToWord _ _ _) _ _ _ => true
  | _ => false

/-- If the activation is at a conversion, the operand is a word of its source size. -/
def WellSized (fr : Frame) : Prop :=
  ∀ {b s m}, fr.func.block? fr.label = some b → b.statements[fr.index]? = some s → Converted s.exp m →
    ∃ x, fr.env m.2 = some (.word m.1.source x)

theorem eval_conversion (hW : Converts W) {ρ : Env} {c : Conversion} {y : Var} {u : Val} (hu : ρ y = some u)
    (targs : List Ty) (mode : Option Mode) (t : Trace) :
    (Exp.primApp (.wordExtdToWord c.source c.target c.signed) targs mode [y]).eval W ρ t =
      ((c.apply u).elim .gone .value,
        t ++ [.prim (.wordExtdToWord c.source c.target c.signed) targs mode [u]]) := by
  simp only [Exp.eval, Env.all_singleton.mpr hu, World.primApp, hW.prim]
  cases c.apply u <;> rfl

/-- **What a statement becomes** has the value of the statement, if that has one. -/
theorem preserved_or_lost (hscoped : p.Scoped globals) (hunary : Unary p) (hW : Converts W)
    {fs : List Function} (hfs : List.Forall₂ (Mapped p) p.functions fs) (hfr : fr.Defined W globals p)
    (t : Trace) :
    fr.Preserved W (Paired p (rewritten p fs)) isConversion t ∨ fr.Lost W t ∧ ¬ WellSized fr := by
  by_cases hlost : fr.Lost W t ∧ ¬ WellSized fr
  · exact .inr hlost
  refine .inl fun {e e'} ⟨f', b, b', s, s', hpaired, hb, hb', hs, hs', he, he'⟩ => ?_
  subst he he'
  obtain ⟨get, hget, rfl⟩ := hpaired.mapped hscoped hfs
  rw [block?_mapFunction, hb] at hb'
  obtain rfl := Option.some.inj hb'
  simp only [mapBlock, List.getElem?_map, hs, Option.map_some, Option.some.injEq] at hs'
  subst hs'
  cases hm : s.var.bind get with
  | none =>
    have hsame : mapStatement get s = s := by simp only [mapStatement, hm]
    rw [hsame]
    exact ⟨rfl, rfl⟩
  | some m =>
    obtain ⟨x, hx, hmark⟩ := Option.bind_eq_some_iff.mp hm
    obtain ⟨g, hg, q, e, m₀, hdef, -, he, hsum⟩ := hget hmark
    have hdef' := DefinedAs.of_statement hb hs hx
    obtain rfl := hscoped.apart g hg _ hfr.func hdef.binds hdef'.binds
    have hf := hscoped.functions _ hfr.func
    obtain ⟨rfl, rfl⟩ := hf.definedAs_unique hdef hdef'
    have hscope := hf.inScope_of_definedAs hdef' he.mem_vars
    obtain ⟨u, hu⟩ := hfr.bound hscope
    obtain ⟨targs, mode, args, hexp⟩ := id he
    obtain rfl : args = [] := List.length_eq_zero_iff.mp (Nat.succ.inj
      (hunary _ hfr.func b (block?_mem hb) s (List.mem_of_getElem? hs) _ _ _ _ _ _ hexp))
    have heval := eval_conversion hW (c := m₀.1) hu targs mode t
    cases hv : m₀.1.apply u with
    | none =>
      refine absurd ⟨⟨b, s, hb, hs, ?_⟩, fun hsized => ?_⟩ hlost
      · rw [hexp, heval, hv]
        rfl
      · obtain ⟨w, hw⟩ := hsized hb hs he
        obtain rfl := Option.some.inj (hu.symm.trans hw)
        simp [Conversion.apply] at hv
    | some v =>
      have hvalue := hsum.apply hscoped hW hfr hscope
        (Option.bind_eq_some_iff.mpr ⟨u, hu, hv⟩ : value fr.env m₀ = some v)
      obtain ⟨w, hw, hwv⟩ := Option.bind_eq_some_iff.mp hvalue
      have hmap : (mapStatement get s).exp = if m.1.source = m.1.target then .var m.2
          else .primApp (.wordExtdToWord m.1.source m.1.target m.1.signed) [] none [m.2] := by
        simp only [mapStatement, hm]
      rw [hexp, heval, hv, hmap]
      split
      · next heq =>
        obtain rfl := Conversion.apply_of_eq heq hwv
        simp only [Exp.eval, hw]
        exact ⟨rfl, Trace.seen_hidden rfl⟩
      · rw [eval_conversion hW hw, hwv]
        exact ⟨rfl, (Trace.seen_hidden rfl).trans (Trace.seen_hidden rfl).symm⟩

/-- **`CombineConversions` preserves values.**  On every program that passes the checks, the pass goes
through, and every state that the program reaches is reached by the rewritten one with the same variables
at the same values, unless a conversion was applied to something that is no word of its source size.  If
that never happens, the rewritten program reaches nothing else. -/
theorem transform_preserves {W : World} {globals : List Var} {G : Env} {p : Program}
    (hscoped : p.Scoped globals) (hunary : Unary p) (hW : Converts W)
    (hG : ∀ x ∈ globals, ∃ v, G x = some v) :
    ∃ fs, (∀ shrink, transform shrink p = some { p with functions := (fs.map shrink).reverse }) ∧
      (∀ s, p.Reaches W G s →
        (∃ t, s = .ended .gone t) ∧
          (∃ fr stack t, p.Reaches W G (.running fr stack t) ∧ ¬ WellSized fr) ∨
        ∃ s', (rewritten p fs).Reaches W G s' ∧
          State.Same (Paired p (rewritten p fs)) isConversion s s') ∧
      ((∀ fr stack t, p.Reaches W G (.running fr stack t) → WellSized fr) →
        ∀ s', (rewritten p fs).Reaches W G s' → ∃ s, p.Reaches W G s ∧
          State.Same (Paired p (rewritten p fs)) isConversion s s') := by
  obtain ⟨fs, get, hdoit, hfs⟩ := doitFunctions_spec hscoped hunary p.functions []
    (fun _ => none) rfl ⟨fun {x m} h => (nomatch h), fun {x} h => absurd rfl h⟩
  have halike := alike_rewritten hscoped hfs
  have hpres : ∀ {fr stack t}, p.Reaches W G (.running fr stack t) →
      fr.Preserved W (Paired p (rewritten p fs)) isConversion t ∨ fr.Lost W t ∧ ¬ WellSized fr := fun h =>
    preserved_or_lost hscoped hunary hW hfs (h.held (defined_kept hscoped hG)).1 _
  refine ⟨fs, fun shrink => by simp [transform, hdoit], fun s hs => ?_, fun hsized s' hs' => ?_⟩
  · refine halike.reaches hW.blind (fun {fr stack t} h => ?_) hs
    exact (hpres h).imp_right fun ⟨hlost, hsized⟩ => ⟨hlost, fr, stack, t, h, hsized⟩
  · exact halike.reaches_of hW.blind
      (fun h => (hpres h).resolve_right fun hlost => hlost.2 (hsized _ _ _ h)) hs'

/-! ## A chain that comes back to where it started -/

section Chain

/-- `L0 () { v0 = 0w200; v1 = extd (8, 32, signed) v0; v2 = extd (32, 64) v1; v3 = extd (64, 8) v2;
return (v3) }`. -/
def chain : Program where
  functions := [{
    args := []
    blocks := [
      { args := []
        label := ⟨0⟩
        statements := [
          ⟨some ⟨0⟩, .word 8, .const (.word 8 200)⟩,
          ⟨some ⟨1⟩, .word 32, .primApp (.wordExtdToWord 8 32 true) [] none [⟨0⟩]⟩,
          ⟨some ⟨2⟩, .word 64, .primApp (.wordExtdToWord 32 64 false) [] none [⟨1⟩]⟩,
          ⟨some ⟨3⟩, .word 8, .primApp (.wordExtdToWord 64 8 false) [] none [⟨2⟩]⟩]
        transfer := .ret [⟨3⟩] }]
    mayInline := true
    name := ⟨0⟩
    raises := none
    returns := some [.word 8]
    start := ⟨0⟩ }]
  main := ⟨0⟩

/-- The signed extension is not undone by the unsigned one behind it, but the last conversion cuts both
off. -/
example : (doitFunctions chain.functions fun _ => none).map (fun r => [⟨1⟩, ⟨2⟩, ⟨3⟩].map r.2) =
    some [some (⟨8, 32, true⟩, ⟨0⟩), some (⟨32, 64, false⟩, ⟨1⟩), some (⟨8, 8, true⟩, ⟨0⟩)] := by decide

/-- A world in which primitives but conversions never come back. -/
def converting : World where
  call _ _ _ := none
  prim _ prim _ _ vs :=
    match prim, vs with
    | .wordExtdToWord source target signed, [v] => Conversion.apply ⟨source, target, signed⟩ v
    | _, _ => none
  runtime _ _ _ := none

theorem converts_converting : Converts converting where
  prim {t source target signed targs mode vs} := by
    cases vs with
    | nil => rfl
    | cons v vs => cases vs <;> rfl
  blind := ⟨fun _ => rfl, fun _ => rfl⟩

/-- The rewritten program gets to the end of the chain, with the values of the chain. -/
theorem transform_preserves_chain : ∃ fs,
    (∀ shrink, transform shrink chain = some { chain with functions := (fs.map shrink).reverse }) ∧
    ∃ fr t, (rewritten chain fs).Reaches converting (fun _ => none) (.running fr [] t) ∧
      fr.env ⟨2⟩ = some (.const (.word 64 4294967240)) ∧ fr.env ⟨3⟩ = some (.const (.word 8 200)) := by
  obtain ⟨fs, htransform, hreaches, -⟩ := transform_preserves (W := converting)
    (G := fun _ => none) (Program.LocallyScoped.scoped (by decide : chain.LocallyScoped [])) (by
      intro f hf b hb s hs source target signed targs mode args heq
      obtain rfl := List.mem_singleton.mp hf
      obtain rfl := List.mem_singleton.mp hb
      simp only [List.mem_cons, List.not_mem_nil, or_false] at hs
      obtain rfl | rfl | rfl | rfl := hs <;> cases heq <;> rfl) converts_converting (by simp)
  refine ⟨fs, htransform, ?_⟩
  obtain ⟨⟨t, ht⟩, -⟩ | ⟨s', hs', hsame⟩ := hreaches _
    (.step (.step (.step (.step (.init rfl) rfl) rfl) rfl) rfl)
  · cases ht
  · cases hsame with
    | running hfr hstack =>
      cases hstack
      exact ⟨_, _, hs', by rw [hfr.env]; rfl, by rw [hfr.env]; rfl⟩

end Chain

end MLton.Ssa.CombineConversions
