import MLton.Ssa.CommonArgSound
import MLton.Ssa.PaddedBlocks

/-!
# Ssa/CommonArgOutput — what the pass puts in place of the formals it removes

The moves at the start of a block stand for the formals that went.  A path of the rewritten function
is a path of the function, seen through the moves, so what was in scope at a point is in scope at the
point behind the moves (`inScope_rewrite`), and `y` is in scope at the moves that read it.  Gotos lose
the arguments of the formals that went; no other transfer had one of them for a target
(`agrees_rewrite`).
-/

namespace MLton.Ssa.CommonArg

open MLton.Dominance

section Rewrite

variable {get : Var → Var} {f f' : Function} {b b' : Block} {l : Label} {globals : List Var} {x y : Var}

/-- The formals of a block that go. -/
def removed (get : Var → Var) (b : Block) : List (Var × Ty) := b.args.filter fun vt => ¬ keepVar get vt.1

theorem rewriteBlock_eq (h : rewriteBlock f get b = some b') :
    b'.label = b.label ∧ b'.args = b.args.filter (fun vt => keepVar get vt.1) ∧
      b'.statements = moves get (removed get b) ++ b.statements ∧
      rewriteTransfer f get b.transfer = some b'.transfer := by
  obtain ⟨tr, htr, h⟩ := Option.bind_eq_some_iff.mp h
  obtain rfl := Option.some.inj h
  refine ⟨rfl, rfl, ?_, htr⟩
  simp only [removed]
  split
  · next hempty => rw [List.isEmpty_iff.mp hempty]; rfl
  · rfl

theorem length_moves {rems : List (Var × Ty)} : (moves get rems).length = rems.length := by
  simp [moves]

theorem labels_rewriteTransfer {tr tr' : Transfer} (h : rewriteTransfer f get tr = some tr') :
    tr'.labels = tr.labels := by
  cases tr with
  | goto dst args =>
    obtain ⟨args', -, rfl⟩ := Option.map_eq_some_iff.mp h
    rfl
  | _ => exact congrArg Transfer.labels (Option.some.inj h).symm

/-- The arguments that stay are as many as the formals that stay, and of their types. -/
theorem all_keepArgs {τ : Types} : ∀ {args : List Var} {vts : List (Var × Ty)},
    τ.all args = some (vts.map Prod.snd) →
    τ.all (((args.zip vts).filter fun avt => keepVar get avt.2.1).map Prod.fst) =
      some ((vts.filter fun vt => keepVar get vt.1).map Prod.snd)
  | [], [], _ => rfl
  | [], _ :: _, h => by simp [Types.all] at h
  | a :: args, [], h => by simpa using (Fold.mapM_eq_some.mp h).length_eq
  | a :: args, vt :: vts, h => by
    obtain ⟨ha, hargs⟩ := List.forall₂_cons.mp (Fold.mapM_eq_some.mp h)
    have ih := all_keepArgs (Fold.mapM_eq_some.mpr hargs)
    rw [List.zip_cons_cons]
    by_cases hkeep : keepVar get vt.1
    · rw [List.filter_cons_of_pos (by simpa using hkeep), List.filter_cons_of_pos (by simpa using hkeep)]
      exact Fold.mapM_eq_some.mpr (.cons ha (Fold.mapM_eq_some.mp ih))
    · rw [List.filter_cons_of_neg (by simpa using hkeep), List.filter_cons_of_neg (by simpa using hkeep)]
      exact ih

theorem vars_rewriteTransfer {tr tr' : Transfer} (h : rewriteTransfer f get tr = some tr') {z : Var}
    (hz : z ∈ tr'.vars) : z ∈ tr.vars := by
  cases tr with
  | goto dst args =>
    obtain ⟨args', hargs', rfl⟩ := Option.map_eq_some_iff.mp h
    obtain ⟨vts, -, hkeep⟩ := Option.bind_eq_some_iff.mp hargs'
    obtain ⟨-, hkeep⟩ := Option.ite_none_right_eq_some.mp hkeep
    obtain rfl := Option.some.inj hkeep
    obtain ⟨avt, havt, rfl⟩ := List.mem_map.mp hz
    exact (List.of_mem_zip (List.mem_filter.mp havt).1).1
  | _ => exact Option.some.inj h ▸ hz

variable (h : rewrite get f = some f')

include h

theorem rewrite_fields : f'.start = f.start ∧ f'.args = f.args ∧ f'.name = f.name ∧
    f'.raises = f.raises ∧ f'.returns = f.returns := by
  obtain ⟨blocks, -, rfl⟩ := Option.map_eq_some_iff.mp h
  exact ⟨rfl, rfl, rfl, rfl, rfl⟩

theorem block?_rewrite : f'.block? l = (f.block? l).bind (rewriteBlock f get) := by
  obtain ⟨blocks, hblocks, rfl⟩ := Option.map_eq_some_iff.mp h
  exact Fold.find?_mapM (fun b b' hb => by rw [(rewriteBlock_eq hb).1]) hblocks

theorem exists_block? (hb' : f'.block? l = some b') :
    ∃ b, f.block? l = some b ∧ rewriteBlock f get b = some b' := by
  rw [block?_rewrite h] at hb'
  exact Option.bind_eq_some_iff.mp hb'

theorem exists_block?_rewrite (hb : f.block? l = some b) :
    ∃ b', f'.block? l = some b' ∧ rewriteBlock f get b = some b' := by
  obtain ⟨blocks, hblocks, rfl⟩ := Option.map_eq_some_iff.mp h
  obtain ⟨b', -, hb'⟩ := Fold.exists_of_mapM hblocks (Function.block?_mem hb)
  refine ⟨b', ?_, hb'⟩
  rw [block?_rewrite (f := f) (Option.map_eq_some_iff.mpr ⟨blocks, hblocks, rfl⟩ : rewrite get f = some _), hb]
  exact hb'

/-! ## Scope -/

/-- The moves in front of a block. -/
def movesOf (get : Var → Var) (f : Function) (l : Label) : List Statement :=
  ((f.block? l).map fun b => moves get (removed get b)).getD []

omit h in
theorem movesOf_eq (hb : f.block? l = some b) : movesOf get f l = moves get (removed get b) := by
  rw [movesOf, hb]
  rfl

/-- **The moves stand in front of the blocks.** -/
theorem padded_rewrite : f.Padded (movesOf get f) (fun _ => []) f' where
  start := (rewrite_fields h).1
  args := (rewrite_fields h).2.1
  blocks l := by
    rw [block?_rewrite h]
    cases hb : f.block? l with
    | none => exact .none
    | some b =>
      obtain ⟨b', hb', hrw⟩ := exists_block?_rewrite h hb
      obtain ⟨-, hargs, hstmts, htr⟩ := rewriteBlock_eq hrw
      rw [Option.bind_some, hrw, movesOf_eq hb]
      refine .some ⟨labels_rewriteTransfer htr, by simpa using hstmts, fun x hx => ?_⟩
      obtain ⟨vt, hvt, rfl⟩ := List.mem_map.mp hx
      by_cases hkeep : keepVar get vt.1
      · rw [hargs]
        exact .inl (List.mem_map_of_mem (List.mem_filter.mpr ⟨hvt, by simpa using hkeep⟩))
      · exact .inr ⟨_, List.mem_map_of_mem (List.mem_filter.mpr ⟨hvt, by simpa using hkeep⟩), rfl⟩

/-- **What was in scope at a point is in scope behind the moves.** -/
theorem inScope_rewrite {q : Point} (hb : f.block? q.1 = some b) (hy : f.InScope globals y q) :
    f'.InScope globals y (q.1, (removed get b).length + q.2) := by
  intro hav
  obtain ⟨b', hb', hrw⟩ := exists_block?_rewrite h hb
  have hle : (removed get b).length + q.2 ≤ b'.statements.length := Function.Reachable.index_le hav.reaches hb'
  rw [(rewriteBlock_eq hrw).2.2.1, List.length_append, length_moves] at hle
  have hscope := (padded_rewrite h).inScope hb (Nat.le_of_add_le_add_left hle) hy
  rw [movesOf_eq hb, length_moves] at hscope
  exact hscope hav

/-! ## One definition each -/

/-- Where a binding of the rewritten function was in the function. -/
theorem binds_rewrite {pt : Point} (hx : f'.Binds x pt) : ∃ b, f.block? pt.1 = some b ∧
    ((pt.2 = 0 ∧ f.Binds x (pt.1, 0) ∧ keepVar get x) ∨
      (∃ i, pt.2 = i + 1 ∧ ((removed get b).map Prod.fst)[i]? = some x ∧ f.Binds x (pt.1, 0)) ∨
      ∃ i, pt.2 = (removed get b).length + i + 1 ∧ f.Binds x (pt.1, i + 1)) := by
  cases hx with
  | formal hb' hmem =>
    obtain ⟨b, hb, hrw⟩ := exists_block? h hb'
    rw [(rewriteBlock_eq hrw).2.1] at hmem
    obtain ⟨vt, hvt, rfl⟩ := List.mem_map.mp hmem
    obtain ⟨hvt, hkeep⟩ := List.mem_filter.mp hvt
    exact ⟨b, hb, .inl ⟨rfl, .formal hb (List.mem_map_of_mem hvt), by simpa using hkeep⟩⟩
  | @statement l b' i s hb' hs hvar =>
    obtain ⟨b, hb, hrw⟩ := exists_block? h hb'
    rw [(rewriteBlock_eq hrw).2.2.1] at hs
    refine ⟨b, hb, .inr ?_⟩
    by_cases hi : i < (removed get b).length
    · rw [List.getElem?_append_left (by rwa [length_moves])] at hs
      simp only [moves, List.getElem?_map, Option.map_eq_some_iff] at hs
      obtain ⟨vt, hvt, rfl⟩ := hs
      obtain rfl := Option.some.inj hvar
      refine .inl ⟨i, rfl, by simp [hvt], .formal hb (List.mem_map_of_mem ?_)⟩
      exact (List.mem_filter.mp (List.mem_of_getElem? hvt)).1
    · rw [List.getElem?_append_right (by rw [length_moves]; omega), length_moves] at hs
      exact .inr ⟨i - (removed get b).length, by simp only; omega, .statement hb hs hvar⟩

theorem binds_of_rewrite {pt : Point} (hx : f'.Binds x pt) : ∃ pt, f.Binds x pt := by
  obtain ⟨b, -, ⟨-, hx, -⟩ | ⟨_, -, -, hx⟩ | ⟨_, -, hx⟩⟩ := binds_rewrite h hx <;> exact ⟨_, hx⟩

theorem binds_unique (hf : f.Scoped globals) {pt pt' : Point} (hx : f'.Binds x pt)
    (hx' : f'.Binds x pt') : pt = pt' := by
  obtain ⟨l, j⟩ := pt
  obtain ⟨l', j'⟩ := pt'
  obtain ⟨b, hb, hcase⟩ := binds_rewrite h hx
  obtain ⟨b', hb', hcase'⟩ := binds_rewrite h hx'
  have huniq : ∀ {q q'}, f.Binds x q → f.Binds x q' → q = q' := fun hq hq' =>
    hf.unique (.inl hq) (.inl hq')
  -- a formal that stays, a formal that goes, or a statement, on either side
  have hgone : ∀ {b : Block} {i : ℕ}, ((removed get b).map Prod.fst)[i]? = some x → ¬ keepVar get x := by
    intro b i hi
    obtain ⟨vt, hvt, rfl⟩ := List.mem_map.mp (List.mem_of_getElem? hi)
    simpa using (List.mem_filter.mp hvt).2
  obtain ⟨hj, hq, hkeep⟩ | ⟨i, hj, hi, hq⟩ | ⟨i, hj, hq⟩ := hcase <;>
    obtain ⟨hj', hq', hkeep'⟩ | ⟨i', hj', hi', hq'⟩ | ⟨i', hj', hq'⟩ := hcase' <;>
    obtain ⟨hl, hidx⟩ := Prod.mk.inj (huniq hq hq') <;> simp only at hj hj' hl <;> subst hl hj hj'
  · rfl
  · exact absurd hkeep (hgone hi')
  · cases hidx
  · exact absurd hkeep' (hgone hi)
  · obtain rfl := Option.some.inj (hb.symm.trans hb')
    have hnodup : ((removed get b).map Prod.fst).Nodup :=
      (hf.formals hb).sublist (List.filter_sublist.map _)
    obtain ⟨hlt, hget⟩ := List.getElem?_eq_some_iff.mp hi
    obtain ⟨hlt', hget'⟩ := List.getElem?_eq_some_iff.mp hi'
    rw [hnodup.getElem_inj_iff.mp (hget.trans hget'.symm)]
  · cases hidx
  · cases hidx
  · cases hidx
  · obtain rfl := Option.some.inj (hb.symm.trans hb')
    rw [Nat.succ.inj hidx]

end Rewrite

/-! ## The whole pass -/

section Pass

variable {S : Signatures} {τ : Types} {globals : List Var} {p : Program} {es : List Flow}
  {get : Var → Var} {f f' : Function} {b b' : Block} {l : Label} {x : Var}

variable (hscoped : p.Scoped globals) (hes : transfersFlow p = some es) (hf : f ∈ p.functions)
  (hget : ∀ x, ¬ keepVar get x → Dominates (FlowEdge p es) none (some (get x)) (some x))

include hscoped hes hf hget

/-- The variable a formal is replaced by is in scope at the moves. -/
theorem inScope_moves (h : rewrite get f = some f') (hb : f.block? l = some b)
    (hx : x ∈ b.args.map Prod.fst) (hgone : ¬ keepVar get x) {i : ℕ}
    (hi : i ≤ (removed get b).length) : f'.InScope globals (get x) (l, i) := by
  intro hav
  obtain ⟨hent, -, -⟩ := ((padded_rewrite h).seen hav hb).within (by rwa [movesOf_eq hb, length_moves])
  obtain rfl | ⟨pt, hclear, hmove⟩ := hent
  · exact (hscoped.functions f hf).not_binds_entry (.formal hb hx)
  · refine hget x hgone (around_of_move hscoped hes hf
      (fun v hnode hv => around_of_clear hscoped hes hf hclear hnode hv) hmove
      (.inl (mem_formals hf hb hx)) hgone ?_)
    exact Function.Defines.inScope (.inl (.formal hb hx))

omit hscoped hes hf hget in
theorem labels_rewrite (h : rewrite get f = some f') :
    f'.blocks.map Block.label = f.blocks.map Block.label := by
  obtain ⟨blocks, hblocks, rfl⟩ := Option.map_eq_some_iff.mp h
  exact Fold.map_of_mapM (fun b b' hb => (rewriteBlock_eq hb).1) hblocks

/-- **The rewritten function is well scoped.** -/
theorem scoped_rewrite (h : rewrite get f = some f') : f'.Scoped globals := by
  have hsc := hscoped.functions f hf
  obtain ⟨hstart, hargs, -⟩ := rewrite_fields h
  have hgiven : ∀ {z}, f'.Given globals z ↔ f.Given globals z := by
    intro z
    rw [Function.Given, Function.Given, hargs]
  refine ⟨?_, ?_, ?_, by rw [hargs]; exact hsc.args, ?_, ?_, ?_, ?_⟩
  · rw [labels_rewrite h]
    exact hsc.labels
  · obtain ⟨b, hb, hnil⟩ := hsc.start
    obtain ⟨b', hb', hrw⟩ := exists_block?_rewrite h hb
    exact ⟨b', hstart ▸ hb', by rw [(rewriteBlock_eq hrw).2.1, hnil]; rfl⟩
  · intro l b' hb' l' hl'
    obtain ⟨b, hb, hrw⟩ := exists_block? h hb'
    rw [labels_rewriteTransfer (rewriteBlock_eq hrw).2.2.2] at hl'
    obtain ⟨b₁, hb₁⟩ := hsc.targets hb l' hl'
    exact (exists_block?_rewrite h hb₁).imp fun _ h => h.1
  · intro l b' hb'
    obtain ⟨b, hb, hrw⟩ := exists_block? h hb'
    rw [(rewriteBlock_eq hrw).2.1]
    exact (hsc.formals hb).sublist (List.filter_sublist.map _)
  · have hnot : ∀ {z pt}, f'.Binds z pt → ¬ f'.Given globals z := fun hz hz' =>
      (binds_of_rewrite h hz).elim fun _ hz₁ => hsc.not_given hz₁ (hgiven.mp hz')
    rintro z pt pt' (hz | ⟨hz, rfl⟩) (hz' | ⟨hz', rfl⟩)
    · exact binds_unique h hsc hz hz'
    · exact absurd hz' (hnot hz)
    · exact absurd hz (hnot hz')
    · rfl
  · intro l b' i s z hb' hs hz
    obtain ⟨b, hb, hrw⟩ := exists_block? h hb'
    rw [(rewriteBlock_eq hrw).2.2.1] at hs
    by_cases hi : i < (removed get b).length
    · rw [List.getElem?_append_left (by rwa [length_moves])] at hs
      simp only [moves, List.getElem?_map, Option.map_eq_some_iff] at hs
      obtain ⟨vt, hvt, rfl⟩ := hs
      obtain ⟨hmem, hgone⟩ := List.mem_filter.mp (List.mem_of_getElem? hvt)
      obtain rfl : z = get vt.1 := by simpa [Exp.vars] using hz
      exact inScope_moves hscoped hes hf hget h hb (List.mem_map_of_mem hmem)
        (by simpa using hgone) (Nat.le_of_lt hi)
    · rw [List.getElem?_append_right (by rw [length_moves]; omega), length_moves] at hs
      have := inScope_rewrite h (q := (l, i - (removed get b).length)) hb (hsc.statement hb hs hz)
      rwa [show (removed get b).length + (i - (removed get b).length) = i by omega] at this
  · intro l b' z hb' hz
    obtain ⟨b, hb, hrw⟩ := exists_block? h hb'
    obtain ⟨-, -, hstmts, htr⟩ := rewriteBlock_eq hrw
    rw [hstmts, List.length_append, length_moves]
    refine inScope_rewrite h (q := (l, b.statements.length)) hb (hsc.transfer hb ?_)
    exact vars_rewriteTransfer htr hz

omit hscoped in
/-- The formals of a block that some transfer other than a goto has for a target stay. -/
theorem formals_rewrite (h : rewrite get f = some f') {b₀ : Block} (hb₀ : b₀ ∈ f.blocks)
    (hl : l ∈ b₀.transfer.labels) (htr : ∀ args, b₀.transfer ≠ .goto l args) {ts : List Ty}
    (hts : f.Formals l ts) : f'.Formals l ts := by
  obtain ⟨b, hb, rfl⟩ := hts
  obtain ⟨b', hb', hrw⟩ := exists_block?_rewrite h hb
  refine ⟨b', hb', ?_⟩
  rw [(rewriteBlock_eq hrw).2.1, List.filter_eq_self.mpr fun vt hvt => ?_]
  rw [decide_eq_true_eq]
  by_contra hgone
  exact hget vt.1 hgone (around_of_root
    (flowEdge_visit hes hf hb₀ hl htr hb (List.mem_map_of_mem hvt)) hgone)

end Pass

section Program

variable {S : Signatures} {τ : Types} {globals : List Var} {p : Program} {es : List Flow}
  {get : Var → Var} {fs : List Function}

/-- The program before its functions are shrunk. -/
def rewritten (p : Program) (fs : List Function) : Program := { p with functions := fs.reverse }

variable (hscoped : p.Scoped globals) (hes : transfersFlow p = some es)
  (hget : ∀ x, ¬ keepVar get x → Dominates (FlowEdge p es) none (some (get x)) (some x))
  (hfs : p.functions.mapM (rewrite get) = some fs)

include hfs

theorem exists_of_rewritten {f' : Function} (hf' : f' ∈ (rewritten p fs).functions) :
    ∃ f ∈ p.functions, rewrite get f = some f' :=
  Fold.exists_of_mem_mapM hfs (List.mem_reverse.mp hf')

include hscoped

theorem names_rewritten : ((rewritten p fs).functions.map Function.name).Nodup := by
  rw [rewritten, List.map_reverse, List.nodup_reverse,
    Fold.map_of_mapM (fun f f' hf => (rewrite_fields hf).2.2.1) hfs]
  exact hscoped.names

theorem function?_rewritten {func : Func} {g : Function} (hg : p.function? func = some g) :
    ∃ g', (rewritten p fs).function? func = some g' ∧ g.SameSignature g' := by
  obtain ⟨g', hmem, hrw⟩ := Fold.exists_of_mapM hfs (Program.function?_mem hg)
  obtain ⟨-, hargs, hname, hraises, hreturns⟩ := rewrite_fields hrw
  refine ⟨g', ?_, hargs, hraises, hreturns⟩
  have hfunc : g.name = func := by simpa using List.find?_some hg
  have := Fold.find?_key (names_rewritten hscoped hfs) g' (List.mem_reverse.mpr hmem)
  rwa [hname, hfunc] at this

include hes hget

/-- **The output is well scoped.** -/
theorem scoped_rewritten : (rewritten p fs).Scoped globals := by
  refine ⟨fun f' hf' => ?_, names_rewritten hscoped hfs, ?_, ?_, ?_, ?_, fun f' hf' => ?_⟩
  · obtain ⟨f, hf, hrw⟩ := exists_of_rewritten hfs hf'
    exact scoped_rewrite hscoped hes hf hget hrw
  · have hlabels : (fs.flatMap fun f => f.blocks.map Block.label) =
        p.functions.flatMap fun f => f.blocks.map Block.label := by
      simp only [List.flatMap]
      rw [Fold.map_of_mapM (fun f f' hf => labels_rewrite hf) hfs]
    exact ((List.reverse_perm fs).flatMap_right _).nodup_iff.mpr (hlabels ▸ hscoped.labels)
  · intro f' hf' g' hg' x pt pt' hx hx'
    obtain ⟨f, hf, hrw⟩ := exists_of_rewritten hfs hf'
    obtain ⟨g, hg, hrw'⟩ := exists_of_rewritten hfs hg'
    obtain ⟨q, hq⟩ := binds_of_rewrite hrw hx
    obtain ⟨q', hq'⟩ := binds_of_rewrite hrw' hx'
    obtain rfl := hscoped.apart f hf g hg hq hq'
    exact Option.some.inj (hrw.symm.trans hrw')
  · intro f' hf' g' hg' x pt hx hgiven
    obtain ⟨f, hf, hrw⟩ := exists_of_rewritten hfs hf'
    obtain ⟨g, hg, hrw'⟩ := exists_of_rewritten hfs hg'
    obtain ⟨q, hq⟩ := binds_of_rewrite hrw hx
    refine hscoped.args f hf g hg hq (hgiven.imp_right fun h => ?_)
    rwa [(rewrite_fields hrw').2.1] at h
  · intro f' hf' g' hg' x hx hx'
    obtain ⟨f, hf, hrw⟩ := exists_of_rewritten hfs hf'
    obtain ⟨g, hg, hrw'⟩ := exists_of_rewritten hfs hg'
    rw [(rewrite_fields hrw).2.1] at hx
    rw [(rewrite_fields hrw').2.1] at hx'
    obtain rfl := hscoped.argsApart f hf g hg hx hx'
    exact Option.some.inj (hrw.symm.trans hrw')
  · obtain ⟨f, hf, hrw⟩ := exists_of_rewritten hfs hf'
    rw [(rewrite_fields hrw).2.1]
    exact hscoped.globals f hf

/-- **Every transfer of the output agrees with its targets.** -/
theorem agrees_rewritten (hagree : p.Agrees S τ) : (rewritten p fs).Agrees S τ := by
  intro f' hf'
  obtain ⟨f, hf, hrw⟩ := exists_of_rewritten hfs hf'
  obtain ⟨-, hargs, hname, hraises, hreturns⟩ := rewrite_fields hrw
  refine ⟨hargs ▸ (hagree f hf).1, fun b' hb' => ?_⟩
  obtain ⟨blocks, hblocks, hf'eq⟩ := Option.map_eq_some_iff.mp hrw
  obtain ⟨b, hb, hrwb⟩ : ∃ b ∈ f.blocks, rewriteBlock f get b = some b' :=
    Fold.exists_of_mem_mapM hblocks (by rw [← hf'eq] at hb'; exact hb')
  obtain ⟨-, hformals, -, htr⟩ := rewriteBlock_eq hrwb
  obtain ⟨htyped, hvts⟩ := (hagree f hf).2 b hb
  refine ⟨?_, fun vt hvt => hvts vt (List.mem_filter.mp (hformals ▸ hvt)).1⟩
  by_cases hgoto : ∃ dst args, b.transfer = .goto dst args
  · obtain ⟨dst, args, hgoto⟩ := hgoto
    rw [hgoto] at htr htyped
    obtain ⟨ts, hts, b₁, hb₁, rfl⟩ := htyped
    obtain ⟨b₁', hb₁', hrw₁⟩ := exists_block?_rewrite hrw hb₁
    simp only [rewriteTransfer, labelArgs, hb₁, Option.map_some, Option.bind_some, keepArgs,
      Option.map_eq_some_iff, Option.ite_none_right_eq_some] at htr
    obtain ⟨args', ⟨-, hkeep⟩, htr⟩ := htr
    obtain rfl := Option.some.inj hkeep
    rw [← htr]
    exact ⟨_, all_keepArgs hts, b₁', hb₁', by rw [(rewriteBlock_eq hrw₁).2.1]⟩
  · have hsame : b'.transfer = b.transfer := by
      cases h : b.transfer with
      | goto dst args => exact absurd ⟨dst, args, h⟩ hgoto
      | _ =>
        rw [h] at htr
        exact (Option.some.inj htr).symm
    rw [hsame]
    exact htyped.map ⟨hargs, hraises, hreturns⟩
      (fun l hl ts => formals_rewrite hes hf hget hrw hb hl fun args h => hgoto ⟨l, args, h⟩)
      fun func g => function?_rewritten hscoped hfs

end Program

/-- The pass does not raise. -/
theorem rewrite_total {S : Signatures} {τ : Types} {p : Program}
    (get : Var → Var) (hagree : p.Agrees S τ) :
    ∃ fs, p.functions.mapM (rewrite get) = some fs := by
  refine Fold.mapM_total fun f hf => ?_
  obtain ⟨blocks, hblocks⟩ := Fold.mapM_total (l := f.blocks) (f := rewriteBlock f get) fun b hb => by
    suffices ∃ tr, rewriteTransfer f get b.transfer = some tr from
      this.elim fun tr htr => ⟨_, by rw [rewriteBlock, htr]; rfl⟩
    cases htr : b.transfer with
    | goto dst args =>
      obtain ⟨ts, hargs, hformals⟩ := htr ▸ ((hagree f hf).2 b hb).1
      obtain ⟨b₁, hb₁, -⟩ := id hformals
      have hlen := length_of_agrees hargs hformals hb₁
      exact ⟨_, by simp only [rewriteTransfer, labelArgs, hb₁, Option.map_some, Option.bind_some,
        keepArgs, hlen, if_true]; rfl⟩
    | _ => exact ⟨_, rfl⟩
  exact ⟨{ f with blocks := blocks }, by rw [rewrite, hblocks]; rfl⟩

/-- **`CommonArg` is sound.**  On every program that passes the checks, the pass goes through, and it
rewrites the functions so that: wherever a removed formal is in scope, in any state of any run, it has
the value of the variable it is replaced by; that variable is in scope, in the output, wherever the
formal was and at the moves that stand for it; and the output passes the checks, so that gotos, calls
and formals agree. -/
theorem transform_sound {S : Signatures} {τ : Types} {globals : List Var} {p : Program}
    (hscoped : p.Scoped globals) (hagree : p.Agrees S τ) :
    ∃ get fs, analyze p = some get ∧ p.functions.mapM (rewrite get) = some fs ∧
      (∀ shrink, transform shrink p = some { p with functions := (fs.map shrink).reverse }) ∧
      (∀ W G, (∀ x ∈ globals, ∃ a, G x = some a) → ∀ fr stack t,
        p.Reaches W G (.running fr stack t) → ∀ l b, fr.func.block? l = some b →
        ∀ x ∈ b.args.map Prod.fst, ¬ keepVar get x →
        fr.func.InScope globals x (fr.label, fr.index) →
        ∃ a, fr.env x = some a ∧ fr.env (get x) = some a) ∧
      (∀ f ∈ p.functions, ∀ f', rewrite get f = some f' → ∀ l b, f.block? l = some b →
        ∀ x ∈ b.args.map Prod.fst, ¬ keepVar get x →
        (∀ i ≤ (removed get b).length, f'.InScope globals (get x) (l, i)) ∧
        ∀ l₁ b₁ i, f.block? l₁ = some b₁ → f.InScope globals x (l₁, i) →
          f'.InScope globals (get x) (l₁, (removed get b₁).length + i)) ∧
      (rewritten p fs).Scoped globals ∧ (rewritten p fs).Agrees S τ := by
  obtain ⟨es, get, hes, hanalyze, hget⟩ := analyze_spec hscoped hagree
  obtain ⟨fs, hfs⟩ := rewrite_total get hagree
  refine ⟨get, fs, hanalyze, hfs, fun shrink => ?_, ?_, ?_, scoped_rewritten hscoped hes hget hfs,
    agrees_rewritten hscoped hes hget hfs hagree⟩
  · simp [transform, hanalyze, hfs]
  · intro W G hG fr stack t hreach l b hb x hx hgone hscope
    have hfr := (hreach.held (kept hscoped hes hG)).1
    exact hfr.equal (.inl (mem_formals hfr.func hb hx)) (hget x hgone) hscope
  · intro f hf f' hrw l b hb x hx hgone
    refine ⟨fun i hi => inScope_moves hscoped hes hf hget hrw hb hx hgone hi, ?_⟩
    intro l₁ b₁ i hb₁ hscope
    exact inScope_rewrite hrw (q := (l₁, i)) hb₁
      (inScope_of_dominates hscoped hes hf (hget x hgone) (.inl (mem_formals hf hb hx)) hscope)

/-! ## A loop that passes its own formal around -/

section Looped

/-- `L0 () { v0 = 1; goto L1 (v0) }  L1 (v1) { goto L1 (v1) }`. -/
def looped : Program where
  functions := [{
    args := []
    blocks := [
      { args := []
        label := ⟨0⟩
        statements := [⟨some ⟨0⟩, .word 32, .const (.word 32 1)⟩]
        transfer := .goto ⟨1⟩ [⟨0⟩] },
      { args := [(⟨1⟩, .word 32)]
        label := ⟨1⟩
        statements := []
        transfer := .goto ⟨1⟩ [⟨1⟩] }]
    mayInline := true
    name := ⟨0⟩
    raises := none
    returns := none
    start := ⟨0⟩ }]
  main := ⟨0⟩

/-- The formal goes. -/
example : (analyze looped).map (· ⟨1⟩) = some ⟨0⟩ := by decide

theorem scoped_looped : looped.Scoped [] := Program.LocallyScoped.scoped (by decide)

theorem agrees_looped : looped.Agrees ⟨fun _ => [], fun _ _ _ => True⟩ fun _ => some (.word 32) := by
  intro f hf
  obtain rfl := List.mem_singleton.mp hf
  refine ⟨by simp, fun b hb => ?_⟩
  obtain rfl | hb := List.mem_cons.mp hb
  · exact ⟨⟨[.word 32], rfl, _, rfl, rfl⟩, by simp⟩
  · obtain rfl := List.mem_singleton.mp hb
    exact ⟨⟨[.word 32], rfl, _, rfl, rfl⟩, by simp⟩

/-- The formal of the loop is replaced, and the output passes the checks. -/
theorem transform_sound_looped : ∃ get fs, analyze looped = some get ∧ ¬ keepVar get ⟨1⟩ ∧
    looped.functions.mapM (rewrite get) = some fs ∧ (rewritten looped fs).Scoped [] := by
  obtain ⟨get, fs, hanalyze, hfs, -, -, -, hscoped, -⟩ := transform_sound scoped_looped agrees_looped
  refine ⟨get, fs, hanalyze, ?_, hfs, hscoped⟩
  have hget : (analyze looped).map (· ⟨1⟩) = some ⟨0⟩ := by decide
  rw [hanalyze] at hget
  simp [keepVar, Option.some.inj hget]

end Looped

end MLton.Ssa.CommonArg
