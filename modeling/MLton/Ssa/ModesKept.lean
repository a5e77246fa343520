import MLton.Ssa.CleanUp

/-!
# Ssa/ModesKept — where the objects go, after the passes that rebuild every expression

An object that is still allocated after a pass should be allocated where it was.  Each pass keeps the modes of
constructor applications and tuples, in all of the places that build one, and drops that of every primitive
application it rebuilds (`modes_kept_iff`).
-/

namespace MLton.Ssa

/-! ## Modes -/

/-- The mode of an allocation: of a constructor with arguments, of a tuple, or that a primitive carries, which may
be none. -/
def Exp.allocMode : Exp → Option (Option Mode)
  | .conApp _ (_ :: _) mode => some (some mode)
  | .primApp _ _ mode _ => some mode
  | .tuple _ mode => some (some mode)
  | _ => none

/-- The mode that a primitive application carries. -/
def Exp.primMode : Exp → Option Mode
  | .primApp _ _ mode _ => mode
  | _ => none

/-- If the expression allocates and what it has become does, it has the mode that the expression has. -/
def ModeKept (e e' : Exp) : Prop :=
  ∀ m, e.allocMode = some (some m) → ∀ m', e'.allocMode = some m' → m' = some m

/-- **The modes are kept**, of the statements that a pass reaches, in what it makes of them. -/
def ModesKept (image : Statement → Statement → Prop) (reached out : List Statement) : Prop :=
  ∀ s ∈ reached, ∀ s' ∈ out, image s s' → ModeKept s.exp s'.exp

/-- **The statements of what is built** are what is made of statements, or new. -/
structure Rewritten (image : Statement → Statement → Prop) (new : Statement → Prop) (ss out : List Statement) :
    Prop where
  origin : ∀ s' ∈ out, (∃ s ∈ ss, image s s') ∨ new s'
  kept : ∀ s ∈ ss, (∃ s', image s s') → ∃ s' ∈ out, image s s'

namespace Rewritten

variable {image : Statement → Statement → Prop} {new : Statement → Prop} {ss ss' out out' : List Statement}

theorem nil : Rewritten image new [] [] := ⟨by simp, by simp⟩

theorem append (h : Rewritten image new ss out) (h' : Rewritten image new ss' out') :
    Rewritten image new (ss ++ ss') (out ++ out') where
  origin s' hs' := by
    obtain hs' | hs' := List.mem_append.mp hs'
    · exact (h.origin s' hs').imp_left fun ⟨s, hs, himage⟩ => ⟨s, List.mem_append_left _ hs, himage⟩
    · exact (h'.origin s' hs').imp_left fun ⟨s, hs, himage⟩ => ⟨s, List.mem_append_right _ hs, himage⟩
  kept s hs himage := by
    obtain hs | hs := List.mem_append.mp hs
    · obtain ⟨s', hs', himage'⟩ := h.kept s hs himage
      exact ⟨s', List.mem_append_left _ hs', himage'⟩
    · obtain ⟨s', hs', himage'⟩ := h'.kept s hs himage
      exact ⟨s', List.mem_append_right _ hs', himage'⟩

/-- A statement that nothing is made of. -/
theorem skip {s : Statement} (hnone : ∀ s', ¬ image s s') (h : Rewritten image new ss out) :
    Rewritten image new (s :: ss) out where
  origin s' hs' := (h.origin s' hs').imp_left fun ⟨s, hs, himage⟩ => ⟨s, List.mem_cons_of_mem _ hs, himage⟩
  kept := List.forall_mem_cons.mpr ⟨fun ⟨s', himage⟩ => absurd himage (hnone s'), h.kept⟩

/-- A statement, and what is made of it. -/
theorem cons {s s' : Statement} (himage : image s s') (h : Rewritten image new ss out) :
    Rewritten image new (s :: ss) (s' :: out) :=
  have hone : Rewritten image new [s] [s'] := ⟨by simpa using .inl himage, by simpa using fun _ _ => himage⟩
  hone.append h

/-- New statements. -/
theorem added (hout : ∀ s' ∈ out, new s') : Rewritten image new [] out :=
  ⟨fun s' hs' => .inr (hout s' hs'), by simp⟩

end Rewritten

/-- **What a pass does to modes**, that makes these statements anew: it drops their primitives' modes, and no
other. -/
structure DropsModes (image : Statement → Statement → Prop) (keeps : Statement → Prop) : Prop where
  kept : ∀ {s s'}, image s s' → s.exp.primMode = none → ModeKept s.exp s'.exp
  made : ∀ {s}, s.exp.primMode.isSome → keeps s → ∃ s', image s s'
  dropped : ∀ {s s'}, s.exp.primMode.isSome → keeps s → image s s' → s'.exp.allocMode = some none
  gone : ∀ {s s'}, s.exp.primMode.isSome → ¬ keeps s → image s s' → ModeKept s.exp s'.exp

theorem Exp.exists_primApp {e : Exp} (h : e.primMode.isSome = true) :
    ∃ prim targs m args, e = .primApp prim targs (some m) args := by
  cases e with
  | primApp prim targs mode args =>
    obtain ⟨m, rfl⟩ := Option.isSome_iff_exists.mp h
    exact ⟨prim, targs, m, args, rfl⟩
  | _ => cases h

/-- So the modes are kept if and only if no primitive application that is kept carries one. -/
theorem DropsModes.modesKept_iff {image : Statement → Statement → Prop} {keeps new : Statement → Prop}
    {reached out : List Statement} (h : DropsModes image keeps) (hout : Rewritten image new reached out) :
    ModesKept image reached out ↔ ∀ s ∈ reached, s.exp.primMode.isSome → ¬ keeps s := by
  constructor
  · intro hkept s hs hmode hkeeps
    obtain ⟨s', hs', himage⟩ := hout.kept s hs (h.made hmode hkeeps)
    obtain ⟨_, _, m, _, he⟩ := Exp.exists_primApp hmode
    cases hkept s hs s' hs' himage m (by rw [he]; rfl) none (h.dropped hmode hkeeps himage)
  · intro hgone s hs s' hs' himage
    cases hmode : s.exp.primMode with
    | none => exact h.kept himage hmode
    | some m =>
      have hsome : s.exp.primMode.isSome := by rw [hmode]; rfl
      exact h.gone hsome (hgone s hs hsome) himage

theorem ModeKept.refl (e : Exp) : ModeKept e e := fun _ hm _ hm' => Option.some.inj (hm'.symm.trans hm)

theorem modeKept_of_none {e e' : Exp} (h : e'.allocMode = none) : ModeKept e e' := fun _ _ m' hm' => by
  rw [h] at hm'
  cases hm'

theorem modeKept_conApp (con con' : Con) (args args' : List Var) (mode : Mode) :
    ModeKept (.conApp con args mode) (.conApp con' args' mode) := by
  cases args with
  | nil => exact fun _ hm => nomatch hm
  | cons x xs =>
    cases args' with
    | nil => exact modeKept_of_none rfl
    | cons y ys => exact fun m hm m' hm' => Option.some.inj (hm'.symm.trans hm)

/-! ## RemoveUnused -/

namespace RemoveUnused

variable (A : Analysis)

/-- The statements of the globals and of the blocks that are used. -/
def reached (c : Code) : List Statement :=
  c.globals ++ (c.functions.filter fun f => A.isUsedFunc f.name).flatMap fun f =>
    (f.blocks.filter fun b => A.isUsedLabel b.label).flatMap (·.statements)

/-- The statements that are not dropped. -/
def keeps (s : Statement) : Bool := s.exp.isProfile || s.exp.maySideEffect || s.var.any A.isUsedVar

variable {A}

theorem flatMap_filterMap {α β : Type} {f : α → Option α} {p : α → Bool} {g g' : α → List β}
    (hnone : ∀ a, p a = false → f a = none) (hsome : ∀ a, p a = true → ∃ a', f a = some a' ∧ g a' = g' a) :
    ∀ l : List α, (l.filterMap f).flatMap g = (l.filter p).flatMap g'
  | [] => rfl
  | a :: l => by
    have ih := flatMap_filterMap hnone hsome l
    cases hp : p a with
    | false => rw [List.filterMap_cons_none (hnone a hp), List.filter_cons_of_neg (by simp [hp]), ih]
    | true =>
      obtain ⟨a', hf, hg⟩ := hsome a hp
      rw [List.filterMap_cons_some hf, List.filter_cons_of_pos hp, List.flatMap_cons, List.flatMap_cons, ih, hg]

theorem filterMap_flatMap {α β γ : Type} (f : β → Option γ) (g : α → List β) :
    ∀ l : List α, (l.flatMap g).filterMap f = l.flatMap fun a => (g a).filterMap f
  | [] => rfl
  | a :: l => by
    rw [List.flatMap_cons, List.flatMap_cons, List.filterMap_append, filterMap_flatMap f g l]

/-- **The statements of what is built** are what is made of the statements that are reached. -/
theorem statements_transform (c : Code) :
    (transform A c).statements = (reached A c).filterMap (simplifyStatement A) := by
  have hblocks (f : Function) : (f.blocks.filterMap (simplifyBlock A f.name)).flatMap (·.statements) =
      (f.blocks.filter fun b => A.isUsedLabel b.label).flatMap fun b => simplifyStatements A b.statements := by
    refine flatMap_filterMap (fun b hb => ?_) (fun b hb => ?_) _
    · rw [simplifyBlock, if_neg (by simp [hb])]
    · exact ⟨_, by rw [simplifyBlock, if_pos hb], rfl⟩
  rw [Code.statements, reached, List.filterMap_append]
  congr 1
  rw [filterMap_flatMap]
  refine flatMap_filterMap (fun f hf => ?_) (fun f hf => ?_) _
  · rw [simplifyFunction, if_neg (by simp [hf])]
  · refine ⟨_, by rw [simplifyFunction, if_pos hf], ?_⟩
    rw [List.flatMap_append, hblocks, filterMap_flatMap]
    -- the blocks that wrap a call have no statements
    refine (congrArg₂ (· ++ ·) (List.flatMap_eq_nil_iff.mpr fun b hb => ?_) rfl).trans (List.nil_append _)
    obtain ⟨_, _, rfl⟩ := List.mem_map.mp hb
    rfl

/-- What is made of a statement. -/
theorem simplifyStatement_spec (s : Statement) :
    (keeps A s = false ∧ simplifyStatement A s = none) ∨
    (s.exp.isProfile = true ∧ simplifyStatement A s = some s) ∨
    (keeps A s = true ∧ s.exp.isProfile = false ∧
      ∃ var, simplifyStatement A s = some ⟨var, simplifyType s.ty, simplifyExp A s.exp⟩) := by
  rw [keeps, simplifyStatement]
  cases hprofile : s.exp.isProfile
  · cases hside : s.exp.maySideEffect <;> cases hvar : s.var with
    | none => simp
    | some x => cases hused : A.isUsedVar x <;> simp [hused]
  · simp

theorem rewritten (c : Code) : Rewritten (fun s s' => simplifyStatement A s = some s') (fun _ => False)
    (reached A c) (transform A c).statements where
  origin s' hs' := by
    rw [statements_transform, List.mem_filterMap] at hs'
    exact .inl hs'
  kept s hs := fun ⟨s', himage⟩ => by
    rw [statements_transform]
    exact ⟨s', List.mem_filterMap.mpr ⟨s, hs, himage⟩, himage⟩

theorem dropsModes : DropsModes (fun s s' => simplifyStatement A s = some s') (fun s => keeps A s = true) where
  kept {s s'} himage hmode := by
    obtain ⟨-, hspec⟩ | ⟨-, hspec⟩ | ⟨-, -, var, hspec⟩ := simplifyStatement_spec (A := A) s
    · rw [hspec] at himage
      cases himage
    · rw [hspec] at himage
      cases himage
      exact .refl _
    · rw [hspec] at himage
      cases himage
      cases he : s.exp with
      | conApp con args mode =>
        simp only [simplifyExp]
        split
        · exact modeKept_conApp _ _ _ _ _
        · exact modeKept_of_none rfl
      | primApp prim targs mode args =>
        rw [he] at hmode
        intro m hm
        cases hm
        cases hmode
      | const | profile | select | tuple | var => exact .refl _
  made {s} hmode hkeeps := by
    obtain ⟨prim, targs, m, args, he⟩ := Exp.exists_primApp hmode
    obtain ⟨hnot, -⟩ | ⟨hprofile, -⟩ | ⟨-, -, var, hspec⟩ := simplifyStatement_spec (A := A) s
    · rw [hnot] at hkeeps
      cases hkeeps
    · rw [he] at hprofile
      cases hprofile
    · exact ⟨_, hspec⟩
  dropped {s s'} hmode hkeeps himage := by
    obtain ⟨prim, targs, m, args, he⟩ := Exp.exists_primApp hmode
    obtain ⟨hnot, -⟩ | ⟨hprofile, -⟩ | ⟨-, -, var, hspec⟩ := simplifyStatement_spec (A := A) s
    · rw [hnot] at hkeeps
      cases hkeeps
    · rw [he] at hprofile
      cases hprofile
    · cases hspec.symm.trans himage
      rw [he]
      rfl
  gone {s s'} hmode hkeeps himage := by
    obtain ⟨prim, targs, m, args, he⟩ := Exp.exists_primApp hmode
    obtain ⟨-, hspec⟩ | ⟨hprofile, -⟩ | ⟨hkept, -⟩ := simplifyStatement_spec (A := A) s
    · rw [hspec] at himage
      cases himage
    · rw [he] at hprofile
      cases hprofile
    · exact absurd hkept hkeeps

end RemoveUnused

/-! ## SimplifyTypes -/

namespace SimplifyTypes

variable (A : Analysis)

/-- The block is dead: a formal of it or a statement has a type that no value has. -/
def blockDead (b : Block) : Bool :=
  (simplifyUsefulFormals A b.args).isNone || b.statements.any fun s => A.simplifyType s.ty = A.typeVoid

mutual

/-- The blocks of a dominator tree that are not dead, down to those that are. -/
def live (f : Function) : Tree Label → List Block
  | .node l children =>
      match f.block? l with
      | none => liveAll f children
      | some b => if blockDead A b then [] else b :: liveAll f children

/-- The blocks that are not dead, of the children of a node. -/
def liveAll (f : Function) : List (Tree Label) → List Block
  | [] => []
  | t :: ts => live f t ++ liveAll f ts

end

/-- The statements of the globals and of the blocks that are not dead. -/
def reached (c : Code) : List Statement :=
  c.globals ++ (c.functions.filter fun f => (simplifyUsefulFormals A f.args).isSome).flatMap fun f =>
    (f.dominatorTree.elim [] (live A f)).flatMap (·.statements)

/-- The application of a primitive is replaced by its value. -/
def folds : Exp → Bool
  | .primApp .arrayLength targs _ _ => targs.head?.any A.isZero
  | .primApp .vectorLength targs _ _ => targs.head?.any A.isZero
  | .primApp .mltonEq targs _ _ => targs.head?.any A.isOne
  | .primApp .mltonEqual targs _ _ => targs.head?.any A.isOne
  | _ => false

/-- The statements that are not dropped, and not replaced by a value. -/
def keeps (s : Statement) : Prop :=
  A.simplifyType s.ty ≠ A.typeVoid ∧ (A.simplifyType s.ty ≠ .unit ∨ s.exp.maySideEffect ∨ s.exp.isProfile) ∧
    folds A s.exp = false

variable {A}

/-- What is made of a primitive application. -/
theorem simplifyExp_primApp (prim : Prim) (targs : List Ty) (mode : Option Mode) (args : List Var) :
    (folds A (.primApp prim targs mode args) = true ∧
      ∃ e, simplifyExp A (.primApp prim targs mode args) = some e ∧ e.allocMode = none) ∨
    (folds A (.primApp prim targs mode args) = false ∧ simplifyExp A (.primApp prim targs mode args) =
      some (.primApp prim (simplifyTypes A targs) none (simplifyVars A args))) := by
  cases hfolds : folds A (.primApp prim targs mode args) with
  | true =>
    refine .inl ⟨rfl, ?_⟩
    cases prim <;> simp only [folds, Bool.false_eq_true] at hfolds <;>
      exact ⟨_, congrArg some (if_pos hfolds), rfl⟩
  | false =>
    refine .inr ⟨rfl, ?_⟩
    cases prim <;> simp only [folds] at hfolds <;> simp [simplifyExp, hfolds]

theorem modeKept_tuple (xs : List Var) (mode : Mode) (e : Exp) (he : ∀ m, e.allocMode = some (some m) → m = mode) :
    ModeKept e (tuple A xs mode) := by
  intro m hm m' hm'
  rw [he m hm]
  rw [tuple] at hm'
  split at hm'
  · cases hm'
  · exact Option.some.inj hm'.symm

/-- What is made of a statement that is kept. -/
theorem simplifyStatement_keep {s s' : Statement} : simplifyStatement A s = some (.keep s') ↔
    A.simplifyType s.ty ≠ A.typeVoid ∧
      (A.simplifyType s.ty ≠ .unit ∨ s.exp.maySideEffect = true ∨ s.exp.isProfile = true) ∧
        ∃ e, simplifyExp A s.exp = some e ∧ s' = ⟨s.var, A.simplifyType s.ty, e⟩ := by
  rw [simplifyStatement]
  split
  next hvoid => simp [hvoid]
  next hvoid =>
    split
    next huse =>
      simp only [Option.map_eq_some_iff, Result.keep.injEq, ne_eq, hvoid, not_false_eq_true, true_and]
      exact ⟨fun ⟨e, he, hs'⟩ => ⟨huse, e, he, hs'.symm⟩, fun ⟨_, e, he, hs'⟩ => ⟨e, he, hs'.symm⟩⟩
    next huse =>
      simp only [Option.some.injEq, reduceCtorEq, false_iff]
      exact fun h => huse h.2.1

theorem dropsModes : DropsModes (fun s s' => simplifyStatement A s = some (.keep s')) (keeps A) where
  kept {s s'} himage hmode := by
    obtain ⟨-, -, e, he, rfl⟩ := simplifyStatement_keep.mp himage
    cases hexp : s.exp with
    | conApp con args mode =>
      simp only [hexp, simplifyExp] at he
      cases hrep : A.conRep con with
      | transparent =>
        simp only [hrep, Option.some.injEq] at he
        rw [← he]
        refine modeKept_tuple _ _ _ fun m hm => ?_
        cases args with
        | nil => cases hm
        | cons => exact (Option.some.inj (Option.some.inj hm)).symm
      | useful =>
        simp only [hrep, Option.some.injEq] at he
        rw [← he]
        exact modeKept_conApp _ _ _ _ _
      | useless => simp [hrep] at he
    | primApp prim targs mode args =>
      rw [hexp] at hmode
      intro m hm
      cases hm
      cases hmode
    | tuple xs mode =>
      simp only [hexp, simplifyExp, Option.some.injEq] at he
      rw [← he]
      exact modeKept_tuple _ _ _ fun m hm => (Option.some.inj (Option.some.inj hm)).symm
    | const | profile | select | var => exact fun _ hm => nomatch hm
  made {s} hmode hkeeps := by
    obtain ⟨prim, targs, m, args, hexp⟩ := Exp.exists_primApp hmode
    obtain ⟨hvoid, huse, hfolds⟩ := hkeeps
    obtain ⟨hfold, -⟩ | ⟨-, he⟩ := simplifyExp_primApp (A := A) prim targs (some m) args
    · rw [hexp, hfold] at hfolds
      cases hfolds
    · exact ⟨_, simplifyStatement_keep.mpr ⟨hvoid, huse, _, by rw [hexp, he], rfl⟩⟩
  dropped {s s'} hmode hkeeps himage := by
    obtain ⟨prim, targs, m, args, hexp⟩ := Exp.exists_primApp hmode
    obtain ⟨-, -, e, he, rfl⟩ := simplifyStatement_keep.mp himage
    obtain ⟨hfold, -⟩ | ⟨-, he'⟩ := simplifyExp_primApp (A := A) prim targs (some m) args
    · have hfolds := hkeeps.2.2
      rw [hexp, hfold] at hfolds
      cases hfolds
    · rw [hexp, he', Option.some.injEq] at he
      rw [← he]
      rfl
  gone {s s'} hmode hkeeps himage := by
    obtain ⟨prim, targs, m, args, hexp⟩ := Exp.exists_primApp hmode
    obtain ⟨hvoid, huse, e, he, rfl⟩ := simplifyStatement_keep.mp himage
    obtain ⟨-, e', he', hnone⟩ | ⟨hfold, -⟩ := simplifyExp_primApp (A := A) prim targs (some m) args
    · rw [hexp, he', Option.some.injEq] at he
      exact modeKept_of_none (by rwa [← he])
    · exact absurd ⟨hvoid, huse, by rw [hexp, hfold]⟩ hkeeps

/-! ### What is built -/

/-- What is made of statements, and the fields that cases on tuples select. -/
abbrev Built (A : Analysis) : List Statement → List Statement → Prop :=
  Rewritten (fun s s' => simplifyStatement A s = some (.keep s')) (fun s' => ∃ x i, s'.exp = .select x i)

theorem simplifyStatement_dead {s : Statement} :
    simplifyStatement A s = some .dead ↔ A.simplifyType s.ty = A.typeVoid := by
  rw [simplifyStatement]
  split
  next hvoid => simp [hvoid]
  next hvoid =>
    split
    · simp [hvoid]
    · simp [hvoid]

/-- The statements of a block. -/
theorem simplifyStatements_spec : ∀ {ss : List Statement} {out : Option (List Statement)},
    simplifyStatements A ss = some out →
      (ss.any fun s => A.simplifyType s.ty = A.typeVoid) = out.isNone ∧ ∀ out' ∈ out, Built A ss out'
  | [], _, h => by
    cases h
    refine ⟨rfl, fun out' hout' => ?_⟩
    cases hout'
    exact .nil
  | s :: ss, out, h => by
    simp only [simplifyStatements, Option.bind_eq_bind, Option.bind_eq_some_iff] at h
    obtain ⟨result, hs, h⟩ := h
    rw [List.any_cons]
    have hdead := simplifyStatement_dead (A := A) (s := s)
    rw [hs] at hdead
    cases result with
    | dead =>
      cases h
      exact ⟨by simp [hdead.mp rfl], fun _ hout' => nomatch hout'⟩
    | delete =>
      obtain ⟨hany, hbuilt⟩ := simplifyStatements_spec h
      refine ⟨by simpa [mt hdead.mpr] using hany, fun out' hout' => (hbuilt out' hout').skip fun s' hs' => ?_⟩
      rw [hs] at hs'
      cases hs'
    | keep s' =>
      simp only [Option.bind_eq_some_iff, Option.pure_def, Option.some.injEq] at h
      obtain ⟨rest, hrest, rfl⟩ := h
      obtain ⟨hany, hbuilt⟩ := simplifyStatements_spec hrest
      refine ⟨by simpa [mt hdead.mpr] using hany, fun out' hout' => ?_⟩
      obtain ⟨rest', hrest', rfl⟩ := Option.map_eq_some_iff.mp hout'
      exact (hbuilt rest' hrest').cons hs

/-- A block. -/
theorem simplifyBlock_spec {b b' : Block} {dead : Bool} (h : simplifyBlock A b = some (dead, b')) :
    dead = blockDead A b ∧ if dead then b'.statements = [] else Built A b.statements b'.statements := by
  rw [simplifyBlock] at h
  rw [blockDead]
  split at h
  next hargs =>
    cases h
    exact ⟨by simp [hargs], rfl⟩
  next args hargs =>
    simp only [Option.bind_eq_bind, Option.bind_eq_some_iff] at h
    obtain ⟨out, hout, h⟩ := h
    obtain ⟨hany, hbuilt⟩ := simplifyStatements_spec hout
    cases out with
    | none =>
      cases h
      exact ⟨by simp [hany], rfl⟩
    | some out =>
      cases h
      refine ⟨by simp [hargs, hany], ?_⟩
      simp only [Bool.false_eq_true, if_false]
      rw [← List.append_nil b.statements]
      refine (hbuilt out rfl).append (.added fun s' hs' => ?_)
      obtain ⟨x, -, rfl⟩ := List.mem_map.mp hs'
      exact ⟨_, _, rfl⟩

mutual

/-- The blocks of a dominator tree. -/
theorem loop_spec {f : Function} : ∀ {t : Tree Label} {bs : List Block}, loop A f t = some bs →
    Built A ((live A f t).flatMap (·.statements)) (bs.flatMap (·.statements))
  | .node l children, bs, h => by
    rw [loop] at h
    rw [live]
    cases hb : f.block? l with
    | none =>
      rw [hb] at h
      exact loopAll_spec h
    | some b =>
      rw [hb] at h
      simp only [Option.bind_eq_bind, Option.bind_eq_some_iff, Prod.exists] at h
      obtain ⟨dead, b', hblock, h⟩ := h
      obtain ⟨hdead, hbuilt⟩ := simplifyBlock_spec hblock
      dsimp only
      rw [← hdead]
      cases dead with
      | true =>
        cases h
        rw [if_pos rfl] at hbuilt ⊢
        rw [List.flatMap_cons, hbuilt]
        exact .nil
      | false =>
        rw [if_neg Bool.false_ne_true] at hbuilt h ⊢
        simp only [Option.bind_eq_some_iff, Option.pure_def, Option.some.injEq] at h
        obtain ⟨rest, hrest, rfl⟩ := h
        exact hbuilt.append (loopAll_spec hrest)

/-- The blocks of the children of a node. -/
theorem loopAll_spec {f : Function} : ∀ {ts : List (Tree Label)} {bs : List Block}, loopAll A f ts = some bs →
    Built A ((liveAll A f ts).flatMap (·.statements)) (bs.flatMap (·.statements))
  | [], bs, h => by
    cases h
    exact .nil
  | t :: ts, bs, h => by
    simp only [loopAll, Option.bind_eq_bind, Option.bind_eq_some_iff, Option.pure_def, Option.some.injEq] at h
    obtain ⟨bs₁, h₁, bs₂, h₂, rfl⟩ := h
    rw [liveAll, List.flatMap_append, List.flatMap_append]
    exact (loop_spec h₁).append (loopAll_spec h₂)

end

/-- The globals. -/
theorem simplifyGlobals_spec : ∀ {ss out : List Statement}, simplifyGlobals A ss = some out → Built A ss out
  | [], _, h => by
    cases h
    exact .nil
  | s :: ss, out, h => by
    simp only [simplifyGlobals, Option.bind_eq_bind, Option.bind_eq_some_iff] at h
    obtain ⟨result, hs, h⟩ := h
    cases result with
    | dead => cases h
    | delete =>
      refine (simplifyGlobals_spec h).skip fun s' hs' => ?_
      rw [hs] at hs'
      cases hs'
    | keep s' =>
      simp only [Option.bind_eq_some_iff, Option.pure_def, Option.some.injEq] at h
      obtain ⟨rest, hrest, rfl⟩ := h
      exact (simplifyGlobals_spec hrest).cons hs

/-- The functions. -/
theorem simplifyFunctions_spec : ∀ {fs fs' : List Function}, simplifyFunctions A fs = some fs' →
    Built A ((fs.filter fun f => (simplifyUsefulFormals A f.args).isSome).flatMap fun f =>
        (f.dominatorTree.elim [] (live A f)).flatMap (·.statements))
      (fs'.flatMap fun f => f.blocks.reverse.flatMap (·.statements))
  | [], _, h => by
    cases h
    exact .nil
  | f :: fs, _, h => by
    simp only [simplifyFunctions, Option.bind_eq_bind, Option.bind_eq_some_iff, Option.pure_def,
      Option.some.injEq] at h
    obtain ⟨f', hf, fs', hfs, rfl⟩ := h
    have ih := simplifyFunctions_spec hfs
    rw [simplifyFunction] at hf
    split at hf
    next hargs =>
      cases hf
      rw [List.filter_cons_of_neg (by simp [hargs])]
      exact ih
    next args hargs =>
      simp only [Option.bind_eq_bind, Option.bind_eq_some_iff, Option.pure_def, Option.some.injEq] at hf
      obtain ⟨t, ht, bs, hbs, rfl⟩ := hf
      rw [List.filter_cons_of_pos (by simp [hargs]), List.flatMap_cons, List.flatMap_append, Option.toList_some,
        List.flatMap_cons, List.flatMap_nil, List.append_nil, List.reverse_reverse, ht]
      exact (loop_spec hbs).append ih

/-- **The statements of what is built** are what is made of the statements that are reached, the unit and the
fields that are selected. -/
theorem mem_statements_transform {c c' : Code} (h : transform A c = some c') :
    Rewritten (fun s s' => simplifyStatement A s = some (.keep s'))
      (fun s' => s'.exp = .unit ∨ ∃ x i, s'.exp = .select x i) (reached A c) c'.statements := by
  simp only [transform, Option.bind_eq_bind, Option.bind_eq_some_iff, Option.pure_def, Option.some.injEq] at h
  obtain ⟨globals, hglobals, fs, hfs, rfl⟩ := h
  have hbuilt := (simplifyGlobals_spec hglobals).append (simplifyFunctions_spec hfs)
  have hmem (s' : Statement) : s' ∈ Code.statements ⟨⟨some A.unitVar, .unit, .unit⟩ :: globals, fs.reverse⟩ ↔
      s' = ⟨some A.unitVar, .unit, .unit⟩ ∨
        s' ∈ globals ++ fs.flatMap fun f => f.blocks.reverse.flatMap (·.statements) := by
    simp [Code.statements]
  refine ⟨fun s' hs' => ?_, fun s hs himage => ?_⟩
  · obtain rfl | hs' := (hmem s').mp hs'
    · exact .inr (.inl rfl)
    · exact (hbuilt.origin s' hs').imp_right .inr
  · obtain ⟨s', hs', himage'⟩ := hbuilt.kept s hs himage
    exact ⟨s', (hmem s').mpr (.inr hs'), himage'⟩

end SimplifyTypes

/-! ## SplitTypes -/

namespace SplitTypes

variable {A : Analysis}

/-- **The statements of what is built** are what is made of the statements of the program. -/
theorem statements_transform (c : Code) : (transform A c).statements = c.statements.map (loopStatement A) := by
  simp only [Code.statements, transform, List.map_append, List.map_flatMap, List.flatMap_map]
  rfl

theorem rewritten (c : Code) : Rewritten (fun s s' => loopStatement A s = s') (fun _ => False)
    c.statements (transform A c).statements where
  origin s' hs' := by
    rw [statements_transform, List.mem_map] at hs'
    exact .inl hs'
  kept s hs _ := by
    rw [statements_transform]
    exact ⟨_, List.mem_map_of_mem hs, rfl⟩

theorem dropsModes : DropsModes (fun s s' => loopStatement A s = s') fun _ => True where
  kept {s s'} himage hmode := by
    subst himage
    rw [loopStatement]
    cases hexp : s.exp with
    | conApp con args mode => exact modeKept_conApp _ _ _ _ _
    | primApp prim targs mode args =>
      rw [hexp] at hmode
      intro m hm
      cases hm
      cases hmode
    | const | profile | select | tuple | var => exact .refl _
  made _ _ := ⟨_, rfl⟩
  dropped {s s'} hmode _ himage := by
    obtain ⟨prim, targs, m, args, hexp⟩ := Exp.exists_primApp hmode
    subst himage
    rw [loopStatement, hexp]
    rfl
  gone _ hkeeps _ := absurd trivial hkeeps

end SplitTypes

/-! ## ShareZeroVec -/

namespace ShareZeroVec

/-- What is made of a statement: the allocation of an array that is cast to a vector is moved. -/
inductive Image (arrVars : List Var) : Statement → Statement → Prop
  | same {s : Statement} : arrayAlloc? arrVars s = none → Image arrVars s s
  | moved {s : Statement} {arrVar : Var} {arrTy eltTy : Ty} {lenVar : Var} (n : Names) :
      arrayAlloc? arrVars s = some (arrVar, arrTy, eltTy, lenVar) →
      Image arrVars s (allocStatement arrTy eltTy lenVar n)

variable {T : Target} {zeroVar : Var} {arrVars : List Var}

/-- What is made of statements, and the tests of lengths. -/
abbrev Built (T : Target) (zeroVar : Var) (arrVars : List Var) : List Statement → List Statement → Prop :=
  Rewritten (Image arrVars) fun s' => ∃ lenVar n, s' = isZeroStatement T zeroVar lenVar n

theorem built_same {ss : List Statement} (h : ∀ s ∈ ss, arrayAlloc? arrVars s = none) :
    Built T zeroVar arrVars ss ss where
  origin s hs := .inl ⟨s, hs, .same (h s hs)⟩
  kept s hs _ := ⟨s, hs, .same (h s hs)⟩

theorem splitStmts_none : ∀ {ss : List Statement}, splitStmts arrVars ss = none →
    ∀ s ∈ ss, arrayAlloc? arrVars s = none
  | [], _ => by simp
  | s :: ss, h => by
    rw [splitStmts] at h
    split at h
    next => cases h
    next hs => exact List.forall_mem_cons.mpr ⟨hs, splitStmts_none (Option.map_eq_none_iff.mp h)⟩

theorem splitStmts_some : ∀ {ss pre post : List Statement} {arr : Var × Ty × Ty × Var},
    splitStmts arrVars ss = some (pre, arr, post) →
      ∃ s, ss = pre ++ s :: post ∧ arrayAlloc? arrVars s = some arr ∧ ∀ s ∈ pre, arrayAlloc? arrVars s = none
  | s :: ss, pre, post, arr, h => by
    rw [splitStmts] at h
    split at h
    next arr' hs =>
      cases h
      exact ⟨s, rfl, hs, by simp⟩
    next hs =>
      obtain ⟨⟨pre', arr', post'⟩, hsplit, heq⟩ := Option.map_eq_some_iff.mp h
      cases heq
      obtain ⟨s', rfl, hs', hpre⟩ := splitStmts_some hsplit
      exact ⟨s', rfl, hs', List.forall_mem_cons.mpr ⟨hs, hpre⟩⟩

theorem doBlock_of_none {b : Block} (h : splitStmts arrVars b.statements = none) :
    doBlock T zeroVar arrVars b = pure [b] := by
  rw [doBlock]
  split
  · rfl
  · simp_all

theorem doBlock_of_some {b : Block} {pre post : List Statement} {arr : Var × Ty × Ty × Var}
    (h : splitStmts arrVars b.statements = some (pre, arr, post)) :
    doBlock T zeroVar arrVars b = do
      let n ← newNames T arr.2.2.1
      return transformBlock T zeroVar b pre arr n ++ (← doBlock T zeroVar arrVars (joinBlock b arr post n)) := by
  rw [doBlock]
  split
  · simp_all
  · next h' =>
      cases h.symm.trans h'
      rfl

/-- **A block that is split**, again and again. -/
theorem doBlock_spec (b : Block) (σ : State) :
    Built T zeroVar arrVars b.statements ((doBlock T zeroVar arrVars b σ).1.flatMap (·.statements)) := by
  cases hsplit : splitStmts arrVars b.statements with
  | none =>
    have hsame : Built T zeroVar arrVars b.statements b.statements := built_same (splitStmts_none hsplit)
    rw [doBlock_of_none hsplit]
    rwa [← List.append_nil b.statements] at hsame ⊢
  | some r =>
    obtain ⟨pre, ⟨arrVar, arrTy, eltTy, lenVar⟩, post⟩ := r
    obtain ⟨s, hss, hs, hpre⟩ := splitStmts_some hsplit
    obtain ⟨n, σ', hout⟩ : ∃ n σ', (doBlock T zeroVar arrVars b σ).1 =
        transformBlock T zeroVar b pre (arrVar, arrTy, eltTy, lenVar) n ++
          (doBlock T zeroVar arrVars (joinBlock b (arrVar, arrTy, eltTy, lenVar) post n) σ').1 := by
      rw [doBlock_of_some hsplit]
      exact ⟨(newNames T eltTy σ).1, (newNames T eltTy σ).2, rfl⟩
    have hpost : Built T zeroVar arrVars post _ := doBlock_spec (joinBlock b (arrVar, arrTy, eltTy, lenVar) post n) σ'
    have hzero : Built T zeroVar arrVars [] [isZeroStatement T zeroVar lenVar n] :=
      .added fun s' hs' => ⟨lenVar, n, List.mem_singleton.mp hs'⟩
    have hbuilt := (built_same hpre).append (hzero.append (hpost.cons (.moved n hs)))
    rw [hss, hout, List.flatMap_append]
    simpa [transformBlock] using hbuilt
termination_by b.statements.length
decreasing_by exact splitStmts_length_lt hsplit

theorem doBlocks_spec : ∀ (bs : List Block) (σ : State), Built T zeroVar arrVars (bs.flatMap (·.statements))
    ((doBlocks T zeroVar arrVars bs σ).1.flatMap (·.statements))
  | [], _ => .nil
  | b :: bs, σ => by
    have hbuilt := (doBlock_spec b σ).append (doBlocks_spec bs (doBlock T zeroVar arrVars b σ).2)
    rw [← List.flatMap_append] at hbuilt
    exact hbuilt

theorem arrayAlloc?_nil (s : Statement) : arrayAlloc? [] s = none := by
  rw [arrayAlloc?]
  split
  · simp
  · rfl

/-- **The statements of a function that is built** are what is made of its statements, and tests of lengths. -/
theorem doFunction_spec (f : Function) (σ : State) :
    Built T zeroVar (ShareZeroVec.arrVars f) (f.blocks.flatMap (·.statements))
      ((doFunction T zeroVar f σ).1.blocks.flatMap (·.statements)) := by
  rw [doFunction]
  split
  next hempty =>
    rw [List.isEmpty_iff] at hempty
    rw [hempty]
    exact built_same fun s _ => arrayAlloc?_nil s
  next => exact doBlocks_spec f.blocks σ

/-- A function, and what is built of it. -/
abbrev FunctionBuilt (T : Target) (zeroVar : Var) (f f' : Function) : Prop :=
  Built T zeroVar (ShareZeroVec.arrVars f) (f.blocks.flatMap (·.statements)) (f'.blocks.flatMap (·.statements))

/-- **The functions that are built**, one for each function. -/
theorem doFunctions_spec : ∀ (fs : List Function) (σ : State),
    List.Forall₂ (FunctionBuilt T zeroVar) fs (doFunctions T zeroVar fs σ).1
  | [], _ => .nil
  | f :: fs, σ => .cons (doFunction_spec f σ) (doFunctions_spec fs (doFunction T zeroVar f σ).2)

/-- The allocations that are moved. -/
def moved (arrVars : List Var) (s : Statement) : Prop := (arrayAlloc? arrVars s).isSome

theorem arrayAlloc?_some {s : Statement} {arrVar lenVar : Var} {arrTy eltTy : Ty}
    (h : arrayAlloc? arrVars s = some (arrVar, arrTy, eltTy, lenVar)) :
    ∃ targs mode args, s.exp = .primApp (.arrayAlloc false) targs mode args := by
  rw [arrayAlloc?] at h
  split at h
  next hexp => exact ⟨_, _, _, hexp⟩
  next => cases h

theorem dropsModes : DropsModes (Image arrVars) (moved arrVars) where
  kept {s s'} himage hmode := by
    cases himage with
    | same => exact .refl _
    | moved n harr =>
      obtain ⟨targs, mode, args, hexp⟩ := arrayAlloc?_some harr
      rw [hexp] at hmode ⊢
      intro m hm
      cases hm
      cases hmode
  made {s} _ hmoved := by
    obtain ⟨⟨arrVar, arrTy, eltTy, lenVar⟩, harr⟩ := Option.isSome_iff_exists.mp hmoved
    let l : Label := ⟨0⟩
    exact ⟨_, .moved ⟨l, l, l, arrVar, arrVar, arrVar⟩ harr⟩
  dropped {s s'} _ hmoved himage := by
    cases himage with
    | same hnone => simp [moved, hnone] at hmoved
    | moved => rfl
  gone {s s'} hmode hmoved himage := by
    cases himage with
    | same => exact .refl _
    | moved n harr => exact absurd (by rw [moved, harr]; rfl) hmoved

theorem functions_transform (c : Code) (σ : State) : ∃ zeroVar σ',
    (transform T c σ).1.functions.reverse = (doFunctions T zeroVar c.functions σ').1 := by
  unfold transform
  cases zeroVar? T c.globals with
  | none => exact ⟨_, _, List.reverse_reverse _⟩
  | some zeroVar => exact ⟨_, _, List.reverse_reverse _⟩

/-- The functions of a program keep the modes if and only if no allocation that is moved carries one. -/
theorem modesKept_iff (c : Code) (σ : State) :
    List.Forall₂ (fun f f' => ModesKept (Image (ShareZeroVec.arrVars f)) (f.blocks.flatMap (·.statements))
        (f'.blocks.flatMap (·.statements))) c.functions (transform T c σ).1.functions.reverse ↔
      ∀ f ∈ c.functions, ∀ s ∈ f.blocks.flatMap (·.statements), s.exp.primMode.isSome →
        ¬ moved (ShareZeroVec.arrVars f) s := by
  obtain ⟨zeroVar, σ', hout⟩ := functions_transform (T := T) c σ
  rw [hout]
  have hall : List.Forall₂ (FunctionBuilt T zeroVar) c.functions _ := doFunctions_spec c.functions σ'
  generalize (doFunctions T zeroVar c.functions σ').1 = fs' at hall ⊢
  generalize c.functions = fs at hall ⊢
  induction hall with
  | nil => simp
  | cons hbuilt _ ih =>
    rw [List.forall₂_cons, List.forall_mem_cons]
    exact and_congr (dropsModes.modesKept_iff hbuilt) ih

end ShareZeroVec

/-! ## The passes -/

/-- **Where the objects go.**  Whatever their analyses found, the passes keep the modes of allocations if and only
if no primitive application that they make anew carries one: for `RemoveUnused`, one of a used block that is used
or has an effect; for `SimplifyTypes`, one of a block that is not dead, of a type that is useful or with an effect,
that is not replaced by its value; for `SplitTypes`, any; for `ShareZeroVec`, an allocation of an array that is
cast to a vector. -/
theorem modes_kept_iff (c : Code) :
    (∀ A : RemoveUnused.Analysis,
      ModesKept (fun s s' => RemoveUnused.simplifyStatement A s = some s') (RemoveUnused.reached A c)
          (RemoveUnused.transform A c).statements ↔
        ∀ s ∈ RemoveUnused.reached A c, s.exp.primMode.isSome → ¬ RemoveUnused.keeps A s) ∧
    (∀ (A : SimplifyTypes.Analysis) (c' : Code), SimplifyTypes.transform A c = some c' →
      (ModesKept (fun s s' => SimplifyTypes.simplifyStatement A s = some (.keep s')) (SimplifyTypes.reached A c)
          c'.statements ↔
        ∀ s ∈ SimplifyTypes.reached A c, s.exp.primMode.isSome → ¬ SimplifyTypes.keeps A s)) ∧
    (∀ A : SplitTypes.Analysis,
      ModesKept (fun s s' => SplitTypes.loopStatement A s = s') c.statements (SplitTypes.transform A c).statements ↔
        ∀ s ∈ c.statements, ¬ s.exp.primMode.isSome) ∧
    ∀ (T : ShareZeroVec.Target) (σ : ShareZeroVec.State),
      List.Forall₂ (fun f f' => ModesKept (ShareZeroVec.Image (ShareZeroVec.arrVars f))
          (f.blocks.flatMap (·.statements)) (f'.blocks.flatMap (·.statements)))
          c.functions (ShareZeroVec.transform T c σ).1.functions.reverse ↔
        ∀ f ∈ c.functions, ∀ s ∈ f.blocks.flatMap (·.statements), s.exp.primMode.isSome →
          ¬ ShareZeroVec.moved (ShareZeroVec.arrVars f) s := by
  refine ⟨fun A => ?_, fun A c' h => ?_, fun A => ?_, fun T σ => ?_⟩
  · exact RemoveUnused.dropsModes.modesKept_iff (RemoveUnused.rewritten c)
  · exact SimplifyTypes.dropsModes.modesKept_iff (SimplifyTypes.mem_statements_transform h)
  · rw [SplitTypes.dropsModes.modesKept_iff (SplitTypes.rewritten c)]
    exact forall₂_congr fun s _ => by rw [not_true_eq_false]
  · exact ShareZeroVec.modesKept_iff c σ

/-- **A vector that is allocated on the stack**, made anew by `RemoveUnused` with all in use and by `SplitTypes`
with the types as they are: no mode is left. -/
theorem modes_dropped :
    let v : Statement := ⟨some ⟨1⟩, .vector (.word 32), .primApp (.named .functional 0) [.word 32] (some .stack) [⟨0⟩]⟩
    let b : Block := ⟨[(⟨0⟩, .word 32)], ⟨0⟩, [v], .ret [⟨1⟩]⟩
    let f : Function := ⟨[], [b], false, ⟨0⟩, none, some [.vector (.word 32)], ⟨0⟩⟩
    let A : RemoveUnused.Analysis := ⟨fun _ => true, fun _ => true, fun _ => [], id, fun _ => true, fun _ => [true],
      fun _ => true, fun _ => [], fun _ => some [.vector (.word 32)], fun _ => none, fun _ t => t, fun _ => []⟩
    let B : SplitTypes.Analysis := ⟨fun x => if x = ⟨0⟩ then .word 32 else .vector (.word 32), fun c _ => c,
      fun _ _ _ => [.word 32], fun p _ _ => p, id, id⟩
    (¬ ModesKept (fun s s' => RemoveUnused.simplifyStatement A s = some s') (RemoveUnused.reached A ⟨[], [f]⟩)
      (RemoveUnused.transform A ⟨[], [f]⟩).statements) ∧
    ¬ ModesKept (fun s s' => SplitTypes.loopStatement B s = s') (Code.statements ⟨[], [f]⟩)
      (SplitTypes.transform B ⟨[], [f]⟩).statements := by
  intro v b f A B
  constructor
  · intro h
    cases h v (by simp [RemoveUnused.reached, f, b, A]) ⟨some ⟨1⟩, .vector (.word 32), .primApp (.named .functional 0)
      [.word 32] none [⟨0⟩]⟩ (by rw [RemoveUnused.statements_transform]; exact List.mem_singleton.mpr rfl) rfl
      .stack rfl none rfl
  · intro h
    cases h v (by simp [Code.statements, f, b]) (SplitTypes.loopStatement B v)
      (by rw [SplitTypes.statements_transform]; exact List.mem_singleton.mpr rfl) rfl .stack rfl none rfl

end MLton.Ssa
