import Mathlib.Data.List.Nodup
import MLton.ClosureConvert.LambdaFree

/-!
# ClosureConvert/LambdaFreeMarks — what a scope has seen

Within one scope only two things are to be known of a variable: whether the scope has seen it, and whether
it is in the scope's list.  Both are composed of what the parts of an expression do one after the other.
-/

namespace MLton.LambdaFree

open Sxml

variable {c c' c'' : Config} {st : State} {x y : Var} {s : Status}

/-! ## What the scope has seen -/

/-- The scope has not seen the variable. -/
def Config.Unseen (c : Config) (x : Var) : Prop := (get x c).1 = .unseen

theorem unseen_iff : c.Unseen x ↔
    (c.scope.id = (c.state.varInfo x).frees → (c.state.varInfo x).status = .unseen) := by
  rw [Config.Unseen, get]
  by_cases h : c.scope.id = (c.state.varInfo x).frees
  · simp [statusRef_of_eq h, h]
  · simp [statusRef_of_ne h, h]

@[simp] theorem scope_id_statusRef : (statusRef x c).scope.id = c.scope.id := by
  rw [statusRef]
  split <;> rfl

@[simp] theorem scope_frees_statusRef : (statusRef x c).scope.frees = c.scope.frees := by
  rw [statusRef]
  split <;> rfl

@[simp] theorem lambdaInfo_statusRef : (statusRef x c).state.lambdaInfo = c.state.lambdaInfo := by
  rw [statusRef]
  split <;> rfl

theorem varInfo_statusRef_of_ne (h : y ≠ x) : (statusRef x c).state.varInfo y = c.state.varInfo y := by
  by_cases hx : c.scope.id = (c.state.varInfo x).frees
  · rw [statusRef_of_eq hx]
  · rw [statusRef_of_ne hx]
    exact Function.update_of_ne h ..

theorem unseen_statusRef : (statusRef y c).Unseen x ↔ c.Unseen x := by
  rw [unseen_iff, unseen_iff, scope_id_statusRef]
  by_cases h : x = y
  · subst h
    by_cases hx : c.scope.id = (c.state.varInfo x).frees
    · rw [statusRef_of_eq hx]
    · simp [statusRef_of_ne hx, hx]
  · rw [varInfo_statusRef_of_ne h]

/-- **What `set` does** to the variable and to the others. -/
theorem unseen_set_self : (set x s c).Unseen x ↔ s = .unseen := by
  rw [unseen_iff]
  simp [set]

theorem unseen_set_of_ne (h : y ≠ x) : (set x s c).Unseen y ↔ c.Unseen y := by
  rw [← unseen_statusRef (y := x) (c := c), unseen_iff, unseen_iff]
  simp [set, Function.update_of_ne h]

@[simp] theorem scope_frees_set : (set x s c).scope.frees = c.scope.frees := scope_frees_statusRef

@[simp] theorem lambdaInfo_set : (set x s c).state.lambdaInfo = c.state.lambdaInfo := lambdaInfo_statusRef

/-- Statuses are all that matters. -/
theorem unseen_congr (hid : c'.scope.id = c.scope.id) (hinfo : c'.state.varInfo = c.state.varInfo) :
    c'.Unseen x ↔ c.Unseen x := by
  rw [unseen_iff, unseen_iff, hid, hinfo]

/-! ## Marks -/

/-- **What happens to the variables of a scope**: those with `O` that were not seen are put into its list,
and are seen then, as those of `lo` are.  Only those of `B` can be seen otherwise. -/
structure Marks (O : Var → Prop) (lo B : List Var) (c c' : Config) : Prop where
  frees : ∃ new, c'.scope.frees = new ++ c.scope.frees ∧ new.Nodup ∧ ∀ x, x ∈ new ↔ O x ∧ c.Unseen x
  mono : ∀ x, c'.Unseen x → c.Unseen x
  bound : ∀ x ∈ lo, ¬ c'.Unseen x
  unseen : ∀ x, x ∉ B → (c'.Unseen x ↔ c.Unseen x ∧ ¬ O x)

namespace Marks

variable {O O' : Var → Prop} {lo lo' B B' : List Var}

/-- Nothing is seen. -/
theorem none (hfrees : c'.scope.frees = c.scope.frees) (h : ∀ x, c'.Unseen x ↔ c.Unseen x) :
    Marks (fun _ => False) [] [] c c' :=
  ⟨⟨[], hfrees, List.nodup_nil, fun _ => ⟨fun h => absurd h List.not_mem_nil, fun h => h.1.elim⟩⟩,
    fun x => (h x).mp, fun _ h => absurd h List.not_mem_nil, fun x _ => by simp [h x]⟩

theorem trans (h : Marks O lo B c c') (h' : Marks O' lo' B' c' c'')
    (hO' : ∀ x, O' x → x ∈ lo ∨ x ∉ B) (hlo : ∀ x ∈ lo, x ∈ B) :
    Marks (fun x => O x ∨ O' x ∧ x ∉ lo) (lo ++ lo') (B ++ B') c c'' := by
  obtain ⟨new, hnew, hnodup, hmem⟩ := h.frees
  obtain ⟨new', hnew', hnodup', hmem'⟩ := h'.frees
  have hboth : ∀ x, x ∈ new' ↔ (O' x ∧ x ∉ lo) ∧ c.Unseen x ∧ ¬ O x := by
    intro x
    rw [hmem']
    constructor
    · rintro ⟨hx, hunseen⟩
      have hnot : x ∉ lo := fun hmem => h.bound x hmem hunseen
      exact ⟨⟨hx, hnot⟩, (h.unseen x ((hO' x hx).resolve_left hnot)).mp hunseen⟩
    · rintro ⟨⟨hx, hnot⟩, hunseen⟩
      exact ⟨hx, (h.unseen x ((hO' x hx).resolve_left hnot)).mpr hunseen⟩
  refine ⟨⟨new' ++ new, by rw [hnew', hnew, List.append_assoc], ?_, fun x => ?_⟩,
    fun x hx => h.mono x (h'.mono x hx), fun x hx => ?_, fun x hx => ?_⟩
  · refine hnodup'.append hnodup fun x hx hx' => ?_
    exact ((hboth x).mp hx).2.2 ((hmem x).mp hx').1
  · rw [List.mem_append, hboth, hmem]
    constructor
    · rintro (⟨hx, hunseen, -⟩ | ⟨hx, hunseen⟩)
      · exact ⟨.inr hx, hunseen⟩
      · exact ⟨.inl hx, hunseen⟩
    · rintro ⟨hx, hunseen⟩
      by_cases hO : O x
      · exact .inr ⟨hO, hunseen⟩
      · exact .inl ⟨hx.resolve_left hO, hunseen, hO⟩
  · rcases List.mem_append.mp hx with hx | hx
    · exact fun hunseen => h.bound x hx (h'.mono x hunseen)
    · exact h'.bound x hx
  · rw [List.mem_append, not_or] at hx
    have hnot : x ∉ lo := fun hmem => hx.1 (hlo x hmem)
    rw [h'.unseen x hx.2, h.unseen x hx.1, not_or, not_and_not_right, and_assoc]
    simp only [hnot, imp_false]

theorem congr (h : Marks O lo B c c') (hO : ∀ x, O x ↔ O' x) (hlo : ∀ x ∈ lo', x ∈ lo)
    (hB : ∀ x ∈ B, x ∈ B') : Marks O' lo' B' c c' := by
  obtain ⟨new, hnew, hnodup, hmem⟩ := h.frees
  refine ⟨⟨new, hnew, hnodup, fun x => ?_⟩, h.mono, fun x hx => h.bound x (hlo x hx), fun x hx => ?_⟩
  · rw [hmem, hO]
  · rw [h.unseen x fun hmem => hx (hB x hmem), hO]

end Marks

theorem marks_bind : Marks (fun _ => False) [x] [x] c (bind x c) := by
  have hself : ¬ (bind x c).Unseen x := fun h => nomatch unseen_set_self.mp h
  refine ⟨⟨[], scope_frees_set, List.nodup_nil, fun _ => by simp⟩, fun y hy => ?_, ?_, fun y hy => ?_⟩
  · by_cases hxy : y = x
    · exact absurd (hxy ▸ hy) hself
    · exact (unseen_set_of_ne hxy).mp hy
  · rintro y hy
    rw [List.mem_singleton.mp hy]
    exact hself
  · rw [bind, unseen_set_of_ne (List.ne_of_not_mem_cons hy)]
    simp

theorem marks_var : Marks (· = x) [] [] c (var x c) := by
  by_cases hx : c.Unseen x
  · have hget : get x c = (.unseen, statusRef x c) := Prod.ext hx rfl
    have hstate : (var x c).state = (set x .free (statusRef x c)).state := by rw [var, hget]
    have hid : (var x c).scope.id = (set x .free (statusRef x c)).scope.id := by rw [var, hget]
    have hunseen : ∀ y, (var x c).Unseen y ↔ c.Unseen y ∧ ¬ y = x := by
      intro y
      rw [unseen_congr hid (congrArg State.varInfo hstate)]
      by_cases hy : y = x
      · rw [hy, unseen_set_self]
        simp
      · rw [unseen_set_of_ne hy, unseen_statusRef]
        simp [hy]
    refine ⟨⟨[x], ?_, List.nodup_singleton x, fun y => ?_⟩, fun y hy => ((hunseen y).mp hy).1,
      fun _ h => absurd h List.not_mem_nil, fun y _ => hunseen y⟩
    · rw [var, hget]
      simp
    · rw [List.mem_singleton]
      exact ⟨fun h => ⟨h, h ▸ hx⟩, fun h => h.1⟩
  · have hvar : var x c = statusRef x c := by
      rw [var, get]
      split
      next heq => exact absurd (congrArg Prod.fst heq) hx
      next heq => exact (congrArg Prod.snd heq).symm
    refine ⟨⟨[], by rw [hvar]; simp, List.nodup_nil, fun y => ?_⟩, fun y hy => ?_,
      fun _ h => absurd h List.not_mem_nil, fun y _ => ?_⟩
    · constructor
      · exact fun h => absurd h List.not_mem_nil
      · rintro ⟨rfl, hy⟩
        exact absurd hy hx
    · rwa [hvar, unseen_statusRef] at hy
    · rw [hvar, unseen_statusRef]
      refine ⟨fun hy => ⟨hy, ?_⟩, And.left⟩
      rintro rfl
      exact hx hy

theorem marks_vars : ∀ {xs : List Var} {c : Config}, Marks (· ∈ xs) [] [] c (vars xs c)
  | [], c => (Marks.none rfl fun _ => Iff.rfl).congr (by simp) (by simp) (by simp)
  | x :: xs, c => by
      refine (marks_var.trans marks_vars (fun _ _ => .inr List.not_mem_nil) fun _ h => h).congr (fun y => ?_) (fun _ h => h) fun _ h => h
      simp

end MLton.LambdaFree
