import MLton.Ssa.LoopInvariant

/-!
# Ssa/LoopInvariantSound — taking invariant formals out of loops changes no run

Every function is split by a sound plan, with names that the supply has left, so the program that comes out is well
scoped and well typed, and runs in step with the one that went in.
-/

namespace MLton.Ssa.LoopInvariant

open MLton.Simulation HeaderSplit

/-- The names of the program have been drawn. -/
structure NamedBelow (globals : List Var) (n : ℕ) (p : Program) : Prop where
  globals : ∀ x ∈ globals, x.id < n
  functions : ∀ f ∈ p.functions, HeaderSplit.Below n f

/-- An activation of the new program is where one of the old program is: in the block that has the body, with the
values of all the old variables. -/
def Together (n : ℕ) (globals : List Var) (fr fr' : Frame) : Prop := ∃ P, Alike n globals P fr fr'

section

variable {S : Signatures} {τ : Types} {globals : List Var} {n : ℕ} {p : Program}

theorem NamedBelow.named (h : NamedBelow globals n p) : p.Named globals n where
  globals := h.globals
  args f hf := (h.functions f hf).args
  labels f hf l hl := by
    obtain ⟨b, hb, rfl⟩ := List.mem_map.mp hl
    exact (h.functions f hf).labels _ (List.mem_cons_of_mem _
      (List.mem_flatMap.mpr ⟨b, hb, List.mem_cons_self ..⟩))
  binds f hf {x pt} hx := (h.functions f hf).binds hx

/-- Gotos fit where the transfers agree. -/
theorem gotosFit {f : Function} (hagree : f.Agrees S τ p) : GotosFit f := by
  intro l b dst args d hb hgoto hd
  obtain ⟨ts, hts, d', hd', rfl⟩ := hgoto ▸ (hagree.2 b (Function.block?_mem hb)).1
  obtain rfl := Option.some.inj (hd.symm.trans hd')
  simpa using (Fold.mapM_eq_some.mp hts).length_eq

/-- What is made of a function. -/
def Simplified (n lo hi : ℕ) (f f' : Function) : Prop :=
  n ≤ lo ∧ ∃ P : Plan, P.Sound lo hi f ∧ Makes P f f'

variable (hscoped : p.Scoped globals) (hagree : p.Agrees S τ)

include hscoped hagree

/-- The functions draw their names one after the other. -/
theorem drawn_simplify : ∃ fs, ((simplify p).run n).1.functions = fs.reverse ∧
    Drawn (Simplified n) n p.functions fs ((simplify p).run n).2 := by
  refine ⟨((p.functions.mapM simplifyFunction).run n).1, rfl, Drawn.of_mapM (Nat.le_refl n) fun f hf m hm => ?_⟩
  obtain ⟨hle, hP⟩ := simplifyFunction_spec (hscoped.functions f hf) (gotosFit (hagree f hf)) m
  exact ⟨hle, hm, hP⟩

variable (hnamed : NamedBelow globals n p)

include hnamed

/-- The functions of the output are found where those of the input were. -/
theorem splits_simplify (func : Func) : Option.Rel (fun f f' => ∃ P, Splits n globals P f f')
    (p.function? func) (((simplify p).run n).1.function? func) := by
  obtain ⟨fs, hfs, hdrawn⟩ := drawn_simplify (n := n) hscoped hagree
  have hdrawn : Drawn (fun lo hi f f' => f ∈ p.functions ∧ Simplified n lo hi f f') n p.functions fs _ :=
    hdrawn.mono fun hf h => ⟨hf, h⟩
  have hrel := hscoped.rel_function? hdrawn (fun ⟨_, _, _, _, hmakes⟩ => hmakes.name) hfs func
  generalize p.function? func = o at hrel ⊢
  generalize ((simplify p).run n).1.function? func = o' at hrel ⊢
  cases hrel with
  | none => exact .none
  | some h =>
    obtain ⟨lo, hi, -, hf, hle, P, hP, hmakes⟩ := h
    exact .some ⟨P, ⟨lo, hi, hle, hP⟩, hnamed.functions _ hf, hmakes, hscoped.functions _ hf⟩

/-- The output is well scoped. -/
theorem scoped_simplify : ((simplify p).run n).1.Scoped globals := by
  obtain ⟨fs, hfs, hdrawn⟩ := drawn_simplify (n := n) hscoped hagree
  refine hscoped.of_drawn hnamed.named (hdrawn.mono fun {lo hi f f'} hf ⟨hle, P, hP, hmakes⟩ => ?_) hfs
  exact hmakes.renewed hP ((hnamed.functions f hf).mono hle) (hscoped.functions f hf)
    fun x hx => (hnamed.globals x hx).trans_le hle

/-- The output is well typed, with types for the new names. -/
theorem agrees_simplify : ∃ τ' : Types, (∀ x : Var, x.id < n → τ' x = τ x) ∧
    ((simplify p).run n).1.Agrees S τ' := by
  obtain ⟨fs, hfs, hdrawn⟩ := drawn_simplify (n := n) hscoped hagree
  have hfunc : ∀ func g, p.function? func = some g →
      ∃ g', ((simplify p).run n).1.function? func = some g' ∧ g.SameSignature g' := by
    intro func g hg
    obtain ⟨g', hg', P, h⟩ := exists_of_rel (splits_simplify hscoped hagree hnamed func) hg
    exact ⟨g', hg', h.makes.args, h.makes.raises, h.makes.returns⟩
  have htyped : Drawn (fun lo hi _ f' => f'.Typed S τ n ((simplify p).run n).1 lo hi) n p.functions fs _ :=
    hdrawn.mono fun {lo hi f f'} hf ⟨hle, P, hP, hmakes⟩ => hmakes.typed hP ((hnamed.functions f hf).mono hle) (hnamed.functions f hf) (hagree f hf) hfunc
  obtain ⟨τ', hτ', hagrees⟩ := agrees_of_drawn (Nat.le_refl n) htyped
  exact ⟨τ', hτ', fun f' hf' => hagrees f' (List.mem_reverse.mp (hfs ▸ hf'))⟩

/-- **LoopInvariant preserves meaning.**  Whatever the loops of the functions are, the program with the headers split
is well scoped and well typed; it reaches a state together with every state that the program reaches, stuck or ended
where that is, and all it reaches is on the way to such a state; and wherever a goto has been redirected, the formals
that it no longer passes have the values of the formals of the outer block. -/
theorem simplify_sound : ((simplify p).run n).1.Scoped globals ∧
    (∃ τ' : Types, (∀ x : Var, x.id < n → τ' x = τ x) ∧ ((simplify p).run n).1.Agrees S τ') ∧
    ∀ W G, (∀ x ∈ globals, ∃ v, G x = some v) →
      (∀ s, p.Reaches W G s → ∃ s', ((simplify p).run n).1.Reaches W G s' ∧
        State.Matches (Together n globals) s s' ∧
        (s.step W p G = none ↔ s'.step W ((simplify p).run n).1 G = none)) ∧
      (∀ s', ((simplify p).run n).1.Reaches W G s' → ∃ s s'', p.Reaches W G s ∧
        State.Matches (Together n globals) s s'' ∧ Steps (State.step W ((simplify p).run n).1 G) s' s'') ∧
      ∀ fr fr' stack t, p.Reaches W G (.running fr stack t) → Together n globals fr fr' →
        ∀ dst args dst' args' d d', fr.At (.goto dst args) → fr'.At (.goto dst' args') → dst' ≠ dst →
          fr.func.block? dst = some d → fr'.func.block? dst' = some d' →
          ∃ fr₁, fr.enters dst args = some fr₁ ∧ ∀ y ∈ d.args.map Prod.fst, y ∉ d'.args.map Prod.fst →
            ∃ v, fr'.env y = some v ∧ fr₁.env y = some v := by
  refine ⟨scoped_simplify hscoped hagree hnamed, agrees_simplify hscoped hagree hnamed, fun W G hG => ?_⟩
  have hF : Refines W p ((simplify p).run n).1 G (Frame.Defined W globals p) (Together n globals) :=
    refines hscoped hagree rfl (splits_simplify hscoped hagree hnamed)
  have hI := defined_kept (W := W) hscoped hG
  refine ⟨fun s => hF.reaches hI, fun s' => hF.reaches_of hI, ?_⟩
  intro fr fr' stack t hreach htogether dst args dst' args' d d' hat hat' hne hd hd'
  have hfr : fr.Defined W globals p := (hreach.held hI).1
  obtain ⟨fr₁, _, henters, -⟩ := hF.goto htogether hfr hat
  obtain ⟨P, h⟩ := htogether
  exact ⟨fr₁, henters, fun y hy hy' => h.dropped hfr hat hat' hne hd hd' hy hy' henters⟩

end

/-! ## A loop with an invariant formal -/

section Looped

/-- `L0 () { v0 = 1; goto L1 (v0, v0) }  L1 (v1, v2) { v3 = v2; goto L1 (v1, v3) }`. -/
def looped : Program where
  functions := [{
    args := []
    blocks := [
      { args := []
        label := ⟨0⟩
        statements := [⟨some ⟨0⟩, .word 32, .const (.word 32 1)⟩]
        transfer := .goto ⟨1⟩ [⟨0⟩, ⟨0⟩] },
      { args := [(⟨1⟩, .word 32), (⟨2⟩, .word 32)]
        label := ⟨1⟩
        statements := [⟨some ⟨3⟩, .word 32, .var ⟨2⟩⟩]
        transfer := .goto ⟨1⟩ [⟨1⟩, ⟨3⟩] }]
    mayInline := true
    name := ⟨0⟩
    raises := none
    returns := none
    start := ⟨0⟩ }]
  main := ⟨0⟩

theorem scoped_looped : looped.Scoped [] := Program.LocallyScoped.scoped (by decide)

theorem agrees_looped : looped.Agrees ⟨fun _ => [], fun _ _ _ => True⟩ fun _ => some (.word 32) := by
  intro f hf
  obtain rfl := List.mem_singleton.mp hf
  refine ⟨by simp, fun b hb => ?_⟩
  obtain rfl | hb := List.mem_cons.mp hb
  · exact ⟨⟨[.word 32, .word 32], rfl, _, rfl, rfl⟩, by simp⟩
  · obtain rfl := List.mem_singleton.mp hb
    exact ⟨⟨[.word 32, .word 32], rfl, _, rfl, rfl⟩, by simp⟩

theorem named_looped : NamedBelow [] 4 looped where
  globals := by simp
  functions := by
    intro f hf
    obtain rfl := List.mem_singleton.mp hf
    constructor <;> decide

/-- The header is split, its second formal stays, and the output is well scoped. -/
theorem simplify_sound_looped :
    ((simplify looped).run 4).1.functions.map (fun f => f.blocks.map fun b => (b.label, b.args.map Prod.fst)) =
      [[(⟨1⟩, [⟨1⟩, ⟨5⟩]), (⟨4⟩, [⟨2⟩]), (⟨0⟩, [])]] ∧ ((simplify looped).run 4).1.Scoped [] :=
  ⟨by decide, (simplify_sound scoped_looped agrees_looped named_looped).1⟩

end Looped

end MLton.Ssa.LoopInvariant
