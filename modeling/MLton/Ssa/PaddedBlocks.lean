import MLton.Ssa.Scopes

/-!
# Ssa/PaddedBlocks — functions whose blocks have got statements in front and behind

The statements in front may bind formals that the block has lost.  A path of the padded function is a path of the
function, seen through the padding (`Function.Padded.seen`), so what was in scope at a point is in scope at the same
point behind the padding (`Function.Padded.inScope`).
-/

namespace MLton.Ssa

open MLton.Dominance

/-- A block with some statements in front, which bind the formals that are missing, and some behind. -/
structure Block.Padded (pre post : List Statement) (b b' : Block) : Prop where
  labels : b'.transfer.labels = b.transfer.labels
  statements : b'.statements = pre ++ b.statements ++ post
  formals : ∀ x ∈ b.args.map Prod.fst, x ∈ b'.args.map Prod.fst ∨ ∃ s ∈ pre, s.var = some x

namespace Function

/-- A function with padded blocks. -/
structure Padded (pre post : Label → List Statement) (f f' : Function) : Prop where
  start : f'.start = f.start
  args : f'.args = f.args
  blocks : ∀ l, Option.Rel (Block.Padded (pre l) (post l)) (f.block? l) (f'.block? l)

/-- Control comes to the block along a path that does not define the variable. -/
def Entered (globals : List Var) (f : Function) (y : Var) (l : Label) : Prop :=
  l = f.start ∨ ∃ pt, Avoids f.Moves f.entry (f.Defines globals y) pt ∧ f.Moves pt (l, 0)

variable {pre post : Label → List Statement} {f f' : Function} {globals : List Var} {b b' : Block} {l : Label} {y : Var}
  {i : ℕ}

theorem Entered.avoids (he : f.Entered globals y l) (hy : ¬ f.Defines globals y (l, 0)) :
    Avoids f.Moves f.entry (f.Defines globals y) (l, 0) := by
  obtain rfl | ⟨pt, hpt, hmove⟩ := he
  · exact .root hy
  · exact hpt.step hmove hy

namespace Padded

theorem exists_block? (h : f.Padded pre post f') (hb' : f'.block? l = some b') :
    ∃ b, f.block? l = some b ∧ b.Padded (pre l) (post l) b' := by
  have hrel := h.blocks l
  rw [hb'] at hrel
  generalize f.block? l = o at hrel ⊢
  cases hrel with
  | some hpad => exact ⟨_, rfl, hpad⟩

theorem exists_padded (h : f.Padded pre post f') (hb : f.block? l = some b) :
    ∃ b', f'.block? l = some b' ∧ b.Padded (pre l) (post l) b' := by
  have hrel := h.blocks l
  rw [hb] at hrel
  generalize f'.block? l = o at hrel ⊢
  cases hrel with
  | some hpad => exact ⟨_, rfl, hpad⟩

/-- What a path to a point of the padded function is in the function: in front of the block, the block has been entered
and the padding so far does not bind the variable; from there on, a path to the point, or to the end of the block. -/
structure Seen (pre : Label → List Statement) (globals : List Var) (f f' : Function) (y : Var) (b : Block)
    (pt : Point) : Prop where
  within : pt.2 ≤ (pre pt.1).length → f.Entered globals y pt.1 ∧ ¬ f'.Defines globals y (pt.1, 0) ∧
    ∀ s ∈ (pre pt.1).take pt.2, s.var ≠ some y
  beyond : (pre pt.1).length ≤ pt.2 →
    Avoids f.Moves f.entry (f.Defines globals y) (pt.1, min (pt.2 - (pre pt.1).length) b.statements.length)

variable (h : f.Padded pre post f')

include h

/-- A formal of the block is still one, or it is bound in front. -/
theorem not_defines_start (hb : f.block? l = some b) (hkept : ¬ f'.Defines globals y (l, 0))
    (hpre : ∀ s ∈ pre l, s.var ≠ some y) : ¬ f.Defines globals y (l, 0) := by
  obtain ⟨b', hb', hpad⟩ := h.exists_padded hb
  rintro (hbind | ⟨hgiven, heq⟩)
  · cases hbind with
    | formal hb₁ hy =>
      obtain rfl := Option.some.inj (hb.symm.trans hb₁)
      obtain hy | ⟨s, hs, hvar⟩ := hpad.formals y hy
      · exact hkept (.inl (.formal hb' hy))
      · exact hpre s hs hvar
  · refine hkept (.inr ⟨hgiven.imp_right fun hy => h.args ▸ hy, ?_⟩)
    rw [heq, Function.entry, Function.entry, h.start]

theorem seen_start (hb : f.block? l = some b) (hl : f.Entered globals y l) (hy : ¬ f'.Defines globals y (l, 0)) :
    Seen pre globals f f' y b (l, 0) := by
  refine ⟨fun _ => ⟨hl, hy, by simp⟩, fun hle => ?_⟩
  have hnil : pre l = [] := List.length_eq_zero_iff.mp (Nat.le_zero.mp hle)
  simpa [hnil] using hl.avoids (h.not_defines_start hb hy (by simp [hnil]))

theorem seen_statement (hs : Seen pre globals f f' y b (l, i)) (hb : f.block? l = some b) (hb' : f'.block? l = some b')
    (hy : ¬ f'.Defines globals y (l, i + 1)) : Seen pre globals f f' y b (l, i + 1) := by
  obtain ⟨b₁, hb₁, hpad⟩ := h.exists_block? hb'
  obtain rfl := Option.some.inj (hb.symm.trans hb₁)
  have hstmts := hpad.statements
  have hwithin : i + 1 ≤ (pre l).length → ∀ s ∈ (pre l).take (i + 1), s.var ≠ some y := by
    intro hle s hmem hvar
    rw [List.take_add_one, List.mem_append] at hmem
    obtain hmem | hmem := hmem
    · exact (hs.within (Nat.le_of_succ_le hle)).2.2 s hmem hvar
    · have hget : (pre l)[i]? = some s := by simpa using hmem
      refine hy (.inl (.statement hb' ?_ hvar))
      rw [hstmts, List.append_assoc, List.getElem?_append_left hle]
      exact hget
  refine ⟨fun hle => ?_, fun hle => ?_⟩
  · obtain ⟨hent, hy₀, -⟩ := hs.within (Nat.le_of_succ_le hle)
    exact ⟨hent, hy₀, hwithin hle⟩
  · obtain heq | hlt := Nat.eq_or_lt_of_le hle
    · obtain ⟨hent, hy₀, -⟩ := hs.within (by simp only at heq ⊢; omega)
      have hpre := hwithin (Nat.le_of_eq heq.symm)
      rw [List.take_of_length_le (Nat.le_of_eq heq)] at hpre
      simpa [heq] using hent.avoids (h.not_defines_start hb hy₀ hpre)
    · have hle' : (pre l).length ≤ i := Nat.le_of_lt_succ hlt
      have hbeyond := hs.beyond hle'
      simp only at hbeyond ⊢
      by_cases hlen : i - (pre l).length < b.statements.length
      · rw [Nat.min_eq_left (Nat.le_of_lt hlen)] at hbeyond
        rw [Nat.sub_add_comm hle', Nat.min_eq_left hlen]
        refine hbeyond.step (.statement hb hlen) ?_
        rintro (hbind | ⟨-, heq⟩)
        · cases hbind with
          | statement hb₁ hs₁ hvar =>
            obtain rfl := Option.some.inj (hb.symm.trans hb₁)
            refine hy (.inl (.statement hb' ?_ hvar))
            rw [hstmts, List.append_assoc, List.getElem?_append_right hle', List.getElem?_append_left hlen]
            exact hs₁
        · cases congrArg Prod.snd heq
      · -- behind the block nothing moves
        rw [Nat.min_eq_right (by omega)] at hbeyond ⊢
        exact hbeyond

/-- **A path of the padded function is a path of the function, seen through the padding.** -/
theorem seen {pt : Point} (hav : Avoids f'.Moves f'.entry (f'.Defines globals y) pt) (hb : f.block? pt.1 = some b) :
    Seen pre globals f f' y b pt := by
  induction hav generalizing b with
  | root hy => exact h.seen_start hb (.inl h.start) hy
  | step _ hmove hy ih =>
    cases hmove with
    | statement hb' => exact h.seen_statement (ih hb) hb hb' hy
    | @transfer l₀ l b₀' hb₀' hl =>
      obtain ⟨b₀, hb₀, hpad⟩ := h.exists_block? hb₀'
      have hlen : b₀'.statements.length = (pre l₀).length + b₀.statements.length + (post l₀).length := by
        rw [hpad.statements, List.length_append, List.length_append]
      have hbeyond := (ih hb₀).beyond (by simp only [hlen]; omega)
      rw [Nat.min_eq_right (by simp only [hlen]; omega)] at hbeyond
      exact h.seen_start hb (.inr ⟨_, hbeyond, .transfer hb₀ (hpad.labels ▸ hl)⟩) hy

/-- **What was in scope at a point is in scope behind the padding.** -/
theorem inScope (hb : f.block? l = some b) (hi : i ≤ b.statements.length) (hy : f.InScope globals y (l, i)) :
    f'.InScope globals y (l, (pre l).length + i) := by
  intro hav
  have hbeyond := (h.seen hav hb).beyond (Nat.le_add_right _ _)
  simp only [Nat.add_sub_cancel_left, Nat.min_eq_left hi] at hbeyond
  exact hy hbeyond

end Padded

end Function

end MLton.Ssa
