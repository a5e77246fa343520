import Mathlib.Data.List.Basic
import Mathlib.Data.List.Induction
import Mathlib.Data.Nat.Find

/-!
# Lib/OperatorTree — operators with levels, and the trees they stand for

A list of items, some of them operators with a level that associate to one side, stands for a tree in which
operands are applied to each other from the left, and an operator takes what is on its two sides
(`Proper`).  There is such a tree exactly if the list is `Regular`: operators stand between operands, and
no two operators of one level, with none of a lower level between them, associate differently.
-/

namespace MLton.OperatorTree

/-- What an item is for: an operand, or an operator with its level, that associates to the right or to
the left. -/
inductive Role where
  | operand
  | operator (level : ℕ) (right : Bool)

/-- A tree over items. -/
inductive OpTree (α : Type*) where
  | leaf (a : α)
  | app (func arg : OpTree α)
  | appInfix (func argl argr : OpTree α)

namespace OpTree

variable {α β : Type*}

/-- The items of a tree, in order. -/
def leaves : OpTree α → List α
  | leaf a => [a]
  | app func arg => func.leaves ++ arg.leaves
  | appInfix func argl argr => argl.leaves ++ (func.leaves ++ argr.leaves)

/-- The operator on top. -/
def root : OpTree α → Option α
  | appInfix (leaf op) _ _ => some op
  | _ => none

/-- The value of a tree. -/
def eval (item : α → β) (apply : β → β → β) (applyInfix : β → β → β → β) : OpTree α → β
  | leaf a => item a
  | app func arg => apply (func.eval item apply applyInfix) (arg.eval item apply applyInfix)
  | appInfix func argl argr => applyInfix (func.eval item apply applyInfix)
      (argl.eval item apply applyInfix) (argr.eval item apply applyInfix)

end OpTree

open OpTree

variable {α : Type*} (role : α → Role)

/-- The item is an operator. -/
def IsOperator (a : α) : Prop := ∃ n right, role a = .operator n right

/-- On top of the left operand of the first operator may be the second. -/
def AllowsLeft : Role → Role → Prop
  | .operator n right, .operator n' right' => n < n' ∨ n = n' ∧ right = false ∧ right' = false
  | _, _ => True

/-- On top of the right operand of the first operator may be the second. -/
def AllowsRight : Role → Role → Prop
  | .operator n right, .operator n' right' => n < n' ∨ n = n' ∧ right = true ∧ right' = true
  | _, _ => True

/-- **Operands applied to each other**, from the left. -/
inductive Applied : OpTree α → Prop
  | leaf {a : α} : role a = .operand → Applied (leaf a)
  | app {func : OpTree α} {a : α} : Applied func → role a = .operand → Applied (app func (leaf a))

/-- **The tree respects levels and sides.** -/
inductive Proper : OpTree α → Prop
  | applied {t : OpTree α} : Applied role t → Proper t
  | appInfix {op : α} {argl argr : OpTree α} : IsOperator role op → Proper argl → Proper argr →
      (∀ o ∈ argl.root, AllowsLeft (role op) (role o)) →
      (∀ o ∈ argr.root, AllowsRight (role op) (role o)) → Proper (appInfix (leaf op) argl argr)

/-- **The list stands for a tree.** -/
structure Regular (xs : List α) : Prop where
  begins : ∀ x ∈ xs.head?, ¬ IsOperator role x
  ends : ∀ x ∈ xs.getLast?, ¬ IsOperator role x
  apart : ∀ (i : ℕ) x y, xs[i]? = some x → xs[i + 1]? = some y → ¬ (IsOperator role x ∧ IsOperator role y)
  agree : ∀ (i j : ℕ) x y n right right', i < j → xs[i]? = some x → xs[j]? = some y →
    role x = .operator n right → role y = .operator n right' →
    (∀ k z m right'', i < k → k < j → xs[k]? = some z → role z = .operator m right'' → n ≤ m) →
    right = right'

variable {role} {t : OpTree α} {xs pre post : List α} {x y : α} {n : ℕ}

theorem Applied.root_eq (h : Applied role t) : t.root = none := by
  cases h <;> rfl

theorem not_isOperator (h : role x = .operand) : ¬ IsOperator role x := by
  rintro ⟨n, right, hx⟩
  rw [h] at hx
  cases hx

theorem role_eq_operand (h : ¬ IsOperator role x) : role x = .operand := by
  cases hx : role x with
  | operand => rfl
  | operator n right => exact absurd ⟨n, right, hx⟩ h

theorem Applied.leaves_ne_nil (h : Applied role t) : t.leaves ≠ [] := by
  cases h <;> simp [leaves]

theorem Proper.leaves_ne_nil (h : Proper role t) : t.leaves ≠ [] := by
  cases h with
  | applied h => exact h.leaves_ne_nil
  | appInfix => simp [leaves]

/-- In applied operands there are no operators. -/
theorem Applied.role_eq (h : Applied role t) : ∀ x ∈ t.leaves, role x = .operand := by
  induction h with
  | leaf ha => simpa [leaves] using ha
  | app _ ha ih =>
    intro x hx
    rcases List.mem_append.mp hx with hx | hx
    · exact ih x hx
    · obtain rfl := List.mem_singleton.mp hx
      exact ha

theorem Proper.root_mem (h : Proper role t) (hx : x ∈ t.root) : x ∈ t.leaves ∧ IsOperator role x := by
  cases h with
  | applied h => simp [h.root_eq] at hx
  | appInfix hop _ _ _ _ =>
    obtain rfl : _ = x := Option.some.inj hx
    exact ⟨by simp [leaves], hop⟩

/-! ## Regular lists -/

/-- The items around an operator. -/
theorem getElem?_around (pre post : List α) (x : α) :
    (∀ i < pre.length, (pre ++ x :: post)[i]? = pre[i]?) ∧ (pre ++ x :: post)[pre.length]? = some x ∧
      ∀ i, (pre ++ x :: post)[pre.length + 1 + i]? = post[i]? := by
  refine ⟨fun i hi => List.getElem?_append_left hi, by simp, fun i => ?_⟩
  rw [List.getElem?_append_right (by omega)]
  simp [show pre.length + 1 + i - pre.length = i + 1 by omega]

/-- **What is on the left of an operator** is regular. -/
theorem Regular.left (h : Regular role (pre ++ x :: post)) (hx : IsOperator role x) :
    pre ≠ [] ∧ Regular role pre := by
  obtain ⟨hpre, hat, -⟩ := getElem?_around pre post x
  have hne : pre ≠ [] := by
    rintro rfl
    exact h.begins x rfl hx
  refine ⟨hne, ?_, ?_, ?_, ?_⟩
  · intro y hy
    refine h.begins y ?_
    rw [List.head?_append_of_ne_nil _ hne]
    exact hy
  · intro y hy hop
    rw [List.getLast?_eq_getElem?] at hy
    have hlen := List.length_pos_iff.mpr hne
    refine h.apart (pre.length - 1) y x ((hpre _ (by omega)).trans hy) ?_ ⟨hop, hx⟩
    rwa [Nat.sub_add_cancel hlen]
  · intro i y z hy hz
    have hi := (List.getElem?_eq_some_iff.mp hz).1
    exact h.apart i y z ((hpre i (by omega)).trans hy) ((hpre _ hi).trans hz)
  · intro i j y z n right right' hij hy hz hroley hrolez hbetween
    have hj := (List.getElem?_eq_some_iff.mp hz).1
    refine h.agree i j y z n right right' hij ((hpre i (by omega)).trans hy) ((hpre j hj).trans hz) hroley
      hrolez fun k w m right'' hik hkj hw => ?_
    exact hbetween k w m right'' hik hkj ((hpre k (by omega)).symm.trans hw)

/-- **What is on the right of an operator** is regular. -/
theorem Regular.right (h : Regular role (pre ++ x :: post)) (hx : IsOperator role x) :
    post ≠ [] ∧ Regular role post := by
  obtain ⟨-, hat, hpost⟩ := getElem?_around pre post x
  have hne : post ≠ [] := by
    rintro rfl
    exact h.ends x (by simp) hx
  refine ⟨hne, ?_, ?_, ?_, ?_⟩
  · intro y hy hop
    rw [List.head?_eq_getElem?] at hy
    exact h.apart pre.length x y hat ((hpost 0).trans hy) ⟨hx, hop⟩
  · intro y hy
    refine h.ends y ?_
    rw [List.getLast?_append_of_ne_nil _ (List.cons_ne_nil _ _), List.getLast?_cons_of_ne_nil hne]
    exact hy
  · intro i y z hy hz
    exact h.apart (pre.length + 1 + i) y z ((hpost i).trans hy) ((hpost (i + 1)).trans hz)
  · intro i j y z n right right' hij hy hz hroley hrolez hbetween
    refine h.agree (pre.length + 1 + i) (pre.length + 1 + j) y z n right right' (by omega)
      ((hpost i).trans hy) ((hpost j).trans hz) hroley hrolez fun k w m right'' hik hkj hw => ?_
    refine hbetween (k - (pre.length + 1)) w m right'' (by omega) (by omega) ?_
    rw [← hpost, show pre.length + 1 + (k - (pre.length + 1)) = k by omega]
    exact hw

/-- **Regular lists around an operator** that what they contain may stand beside. -/
theorem Regular.join (hpre : Regular role pre) (hpost : Regular role post) (hprene : pre ≠ [])
    (hpostne : post ≠ []) (hx : IsOperator role x) (hleft : ∀ y ∈ pre, AllowsLeft (role x) (role y))
    (hright : ∀ y ∈ post, AllowsRight (role x) (role y)) : Regular role (pre ++ x :: post) := by
  obtain ⟨hl, hat, hr⟩ := getElem?_around pre post x
  obtain ⟨nx, sx, hrolex⟩ := hx
  refine ⟨?_, ?_, ?_, ?_⟩
  · intro y hy
    rw [List.head?_append_of_ne_nil _ hprene] at hy
    exact hpre.begins y hy
  · intro y hy
    rw [List.getLast?_append_of_ne_nil _ (List.cons_ne_nil _ _), List.getLast?_cons_of_ne_nil hpostne] at hy
    exact hpost.ends y hy
  · rintro i y z hy hz ⟨hopy, hopz⟩
    rcases Nat.lt_trichotomy (i + 1) pre.length with hi | hi | hi
    · rw [hl i (by omega)] at hy
      rw [hl (i + 1) hi] at hz
      exact hpre.apart i y z hy hz ⟨hopy, hopz⟩
    · rw [hl i (by omega)] at hy
      refine hpre.ends y ?_ hopy
      rwa [List.getLast?_eq_getElem?, ← hi]
    · rcases Nat.lt_or_ge pre.length i with hlt | hge
      · obtain ⟨k, rfl⟩ : ∃ k, i = pre.length + 1 + k := ⟨i - (pre.length + 1), by omega⟩
        rw [hr k] at hy
        rw [Nat.add_assoc _ k, hr (k + 1)] at hz
        exact hpost.apart k y z hy hz ⟨hopy, hopz⟩
      · obtain rfl : i = pre.length := by omega
        refine hpost.begins z ?_ hopz
        rw [List.head?_eq_getElem?, ← hr 0]
        exact hz
  · intro i j y z n s s' hij hy hz hroley hrolez hbetween
    -- Where the two operators are: on one side, or one of them in the middle, or on both sides.
    rcases Nat.lt_trichotomy j pre.length with hj | rfl | hj
    · rw [hl i (by omega)] at hy
      rw [hl j hj] at hz
      exact hpre.agree i j y z n s s' hij hy hz hroley hrolez fun k w m s'' hik hkj hw =>
        hbetween k w m s'' hik hkj ((hl k (by omega)).trans hw)
    · obtain rfl : x = z := Option.some.inj (hat.symm.trans hz)
      rw [hl i hij] at hy
      have hallows := hleft y (List.mem_of_getElem? hy)
      simp only [hroley, hrolez, AllowsLeft, lt_irrefl, true_and, false_or] at hallows
      rw [hallows.1, hallows.2]
    · obtain ⟨j, rfl⟩ : ∃ k, j = pre.length + 1 + k := ⟨j - (pre.length + 1), by omega⟩
      rw [hr j] at hz
      have hallowsz := hright z (List.mem_of_getElem? hz)
      rcases Nat.lt_trichotomy i pre.length with hi | rfl | hi
      · have hlevel := hbetween pre.length x nx sx hi (by omega) hat hrolex
        rw [hl i hi] at hy
        have hallowsy := hleft y (List.mem_of_getElem? hy)
        simp only [hrolex, hroley, AllowsLeft] at hallowsy
        simp only [hrolex, hrolez, AllowsRight] at hallowsz
        obtain ⟨-, hsx, -⟩ := hallowsy.resolve_left (by omega)
        obtain ⟨-, hsx', -⟩ := hallowsz.resolve_left (by omega)
        exact absurd (hsx.symm.trans hsx') (by decide)
      · obtain rfl : x = y := Option.some.inj (hat.symm.trans hy)
        simp only [hroley, hrolez, AllowsRight, lt_irrefl, true_and, false_or] at hallowsz
        rw [hallowsz.1, hallowsz.2]
      · obtain ⟨i, rfl⟩ : ∃ k, i = pre.length + 1 + k := ⟨i - (pre.length + 1), by omega⟩
        rw [hr i] at hy
        refine hpost.agree i j y z n s s' (by omega) hy hz hroley hrolez fun k w m s'' hik hkj hw => ?_
        exact hbetween (pre.length + 1 + k) w m s'' (by omega) (by omega) ((hr k).trans hw)

/-- A list without operators is regular. -/
theorem regular_of_operands (h : ∀ x ∈ xs, role x = .operand) : Regular role xs where
  begins x hx := not_isOperator (h x (List.mem_of_mem_head? hx))
  ends x hx := not_isOperator (h x (List.mem_of_getLast? hx))
  apart _ x _ hx _ hops := not_isOperator (h x (List.mem_of_getElem? hx)) hops.1
  agree _ _ x _ n right _ _ hx _ hrole _ _ :=
    absurd ⟨n, right, hrole⟩ (not_isOperator (h x (List.mem_of_getElem? hx)))

/-! ## Trees and lists -/

section Allows

variable {a b c : Role} {m : ℕ} {side : Bool}

theorem AllowsLeft.trans (hb : b = .operator m side) (h : AllowsLeft a b) (h' : AllowsLeft b c) :
    AllowsLeft a c := by
  subst hb
  cases a <;> cases c <;> grind [AllowsLeft, AllowsRight]

theorem AllowsLeft.trans_right (hb : b = .operator m side) (h : AllowsLeft a b) (h' : AllowsRight b c) :
    AllowsLeft a c := by
  subst hb
  cases a <;> cases c <;> grind [AllowsLeft, AllowsRight]

theorem AllowsRight.trans (hb : b = .operator m side) (h : AllowsRight a b) (h' : AllowsRight b c) :
    AllowsRight a c := by
  subst hb
  cases a <;> cases c <;> grind [AllowsLeft, AllowsRight]

theorem AllowsRight.trans_left (hb : b = .operator m side) (h : AllowsRight a b) (h' : AllowsLeft b c) :
    AllowsRight a c := by
  subst hb
  cases a <;> cases c <;> grind [AllowsLeft, AllowsRight]

end Allows

/-- **What may stand on top may stand anywhere**: it binds the least. -/
theorem Proper.allows (h : Proper role t) (a : Role) :
    ((∀ o ∈ t.root, AllowsLeft a (role o)) → ∀ y ∈ t.leaves, AllowsLeft a (role y)) ∧
      ((∀ o ∈ t.root, AllowsRight a (role o)) → ∀ y ∈ t.leaves, AllowsRight a (role y)) := by
  have hoperand : ∀ {b : Role}, b = .operand → AllowsLeft a b ∧ AllowsRight a b := by
    rintro b rfl
    cases a <;> exact ⟨trivial, trivial⟩
  induction h generalizing a with
  | applied h =>
    exact ⟨fun _ y hy => (hoperand (h.role_eq y hy)).1, fun _ y hy => (hoperand (h.role_eq y hy)).2⟩
  | @appInfix op argl argr hop hl hr hleft hright ihl ihr =>
    obtain ⟨n, side, hrole⟩ := hop
    have hargl := (ihl (role op) (fun h => by subst h; cases role op <;> exact ⟨trivial, trivial⟩)).1 hleft
    have hargr := (ihr (role op) (fun h => by subst h; cases role op <;> exact ⟨trivial, trivial⟩)).2 hright
    constructor <;> intro hroot y hy <;> have htop := hroot op rfl <;>
      simp only [leaves, List.mem_append, List.mem_singleton] at hy <;> rcases hy with hy | rfl | hy
    · exact htop.trans hrole (hargl y hy)
    · exact htop
    · exact htop.trans_right hrole (hargr y hy)
    · exact htop.trans_left hrole (hargl y hy)
    · exact htop
    · exact htop.trans hrole (hargr y hy)

/-- **The items of a proper tree** are regular. -/
theorem Proper.regular (h : Proper role t) : Regular role t.leaves := by
  induction h with
  | applied h => exact regular_of_operands h.role_eq
  | appInfix hop hl hr hleft hright ihl ihr =>
    exact ihl.join ihr hl.leaves_ne_nil hr.leaves_ne_nil hop ((hl.allows _).1 hleft) ((hr.allows _).2 hright)

/-- Operands can be applied to each other. -/
theorem exists_applied : ∀ {xs : List α}, xs ≠ [] → (∀ x ∈ xs, role x = .operand) →
    ∃ t, Applied role t ∧ t.leaves = xs := by
  intro xs
  induction xs using List.reverseRecOn with
  | nil => exact fun h => absurd rfl h
  | append_singleton xs x ih =>
    intro _ h
    have hx : role x = .operand := h x (by simp)
    rcases eq_or_ne xs [] with rfl | hne
    · exact ⟨leaf x, .leaf hx, rfl⟩
    · obtain ⟨t, ht, hleaves⟩ := ih hne fun y hy => h y (List.mem_append_left _ hy)
      exact ⟨app t (leaf x), .app ht hx, by rw [leaves, hleaves, leaves]⟩

/-- The first and the last element with a property. -/
theorem exists_split (P : α → Prop) : ∀ {xs : List α}, (∃ x ∈ xs, P x) →
    (∃ pre x post, xs = pre ++ x :: post ∧ P x ∧ ∀ y ∈ pre, ¬ P y) ∧
      ∃ pre x post, xs = pre ++ x :: post ∧ P x ∧ ∀ y ∈ post, ¬ P y
  | [], ⟨x, hx, _⟩ => absurd hx (by simp)
  | x :: xs, hex => by
      by_cases hx : P x <;> by_cases hxs : ∃ y ∈ xs, P y
      · obtain ⟨-, pre, y, post, rfl, hy, hpost⟩ := exists_split P hxs
        exact ⟨⟨[], x, _, rfl, hx, by simp⟩, x :: pre, y, post, rfl, hy, hpost⟩
      · exact ⟨⟨[], x, _, rfl, hx, by simp⟩, [], x, xs, rfl, hx, fun y hy hP => hxs ⟨y, hy, hP⟩⟩
      · obtain ⟨⟨pre, y, post, rfl, hy, hpre⟩, pre', y', post', hsplit, hy', hpost⟩ := exists_split P hxs
        exact ⟨⟨x :: pre, y, post, rfl, hy, List.forall_mem_cons.mpr ⟨hx, hpre⟩⟩,
          x :: pre', y', post', by rw [hsplit]; rfl, hy', hpost⟩
      · obtain ⟨y, hy, hP⟩ := hex
        rcases List.mem_cons.mp hy with rfl | hy
        · exact absurd hP hx
        · exact absurd ⟨y, hy, hP⟩ hxs

/-- Two operators of the lowest level associate to the same side. -/
theorem Regular.side_eq (h : Regular role xs) {side side' : Bool} (hx : x ∈ xs) (hy : y ∈ xs)
    (hrolex : role x = .operator n side) (hroley : role y = .operator n side')
    (hmin : ∀ z ∈ xs, ∀ m s, role z = .operator m s → n ≤ m) : side = side' := by
  obtain ⟨i, hi⟩ := List.getElem?_of_mem hx
  obtain ⟨j, hj⟩ := List.getElem?_of_mem hy
  have hbetween : ∀ k z m s, xs[k]? = some z → role z = .operator m s → n ≤ m :=
    fun k z m s hz => hmin z (List.mem_of_getElem? hz) m s
  rcases Nat.lt_trichotomy i j with hij | rfl | hij
  · exact h.agree i j x y n side side' hij hi hj hrolex hroley fun k z m s _ _ => hbetween k z m s
  · obtain rfl : x = y := Option.some.inj (hi.symm.trans hj)
    rw [hrolex] at hroley
    cases hroley
    rfl
  · exact (h.agree j i y x n side' side hij hj hi hroley hrolex fun k z m s _ _ => hbetween k z m s).symm

/-- **A regular list is that of a proper tree.**  Split it at an operator of the lowest level: the last one
if they associate to the left, and the first one otherwise. -/
theorem Regular.exists_proper : ∀ {k : ℕ} {xs : List α}, xs.length ≤ k → xs ≠ [] → Regular role xs →
    ∃ t, Proper role t ∧ t.leaves = xs
  | 0, xs, hk, hne, _ => absurd (List.length_eq_zero_iff.mp (Nat.le_zero.mp hk)) hne
  | k + 1, xs, hk, hne, h => by
      by_cases hop : ∃ n, ∃ x ∈ xs, ∃ side, role x = .operator n side
      · classical
        obtain ⟨x, hx, side, hrole⟩ := Nat.find_spec hop
        have hmin : ∀ z ∈ xs, ∀ m s, role z = .operator m s → Nat.find hop ≤ m :=
          fun z hz m s hrolez => Nat.find_min' hop ⟨z, hz, s, hrolez⟩
        generalize Nat.find hop = n at hrole hmin
        have hside : ∀ y ∈ xs, ∀ s, role y = .operator n s → s = side :=
          fun y hy s hroley => h.side_eq hy hx hroley hrole hmin
        have hcases : ∀ z ∈ xs, role z = .operand ∨ (∃ m s, role z = .operator m s ∧ n < m) ∨
            role z = .operator n side := fun z hz => by
          cases hrolez : role z with
          | operand => exact .inl rfl
          | operator m s =>
            rcases Nat.lt_or_eq_of_le (hmin z hz m s hrolez) with hlt | rfl
            · exact .inr (.inl ⟨m, s, rfl, hlt⟩)
            · exact .inr (.inr (by rw [hside z hz s hrolez]))
        obtain ⟨hfirst, hlast⟩ := exists_split (fun y => role y = .operator n side) ⟨x, hx, hrole⟩
        -- Both halves are shorter.
        have hbuild : ∀ pre y post, xs = pre ++ y :: post → role y = .operator n side →
            (∀ z ∈ pre, AllowsLeft (role y) (role z)) → (∀ z ∈ post, AllowsRight (role y) (role z)) →
            ∃ t, Proper role t ∧ t.leaves = xs := by
          rintro pre y post rfl hroley hleft hright
          obtain ⟨hpre, hregpre⟩ := h.left ⟨n, side, hroley⟩
          obtain ⟨hpost, hregpost⟩ := h.right ⟨n, side, hroley⟩
          simp only [List.length_append, List.length_cons] at hk
          obtain ⟨l, hl, rfl⟩ := Regular.exists_proper (k := k) (by omega) hpre hregpre
          obtain ⟨r, hr, rfl⟩ := Regular.exists_proper (k := k) (by omega) hpost hregpost
          exact ⟨appInfix (leaf y) l r, .appInfix ⟨n, side, hroley⟩ hl hr
            (fun o ho => hleft o (hl.root_mem ho).1) fun o ho => hright o (hr.root_mem ho).1, rfl⟩
        cases side with
        | false =>
          obtain ⟨pre, y, post, rfl, hroley, hpost⟩ := hlast
          refine hbuild pre y post rfl hroley (fun z hz => ?_) fun z hz => ?_
          · rcases hcases z (by simp [hz]) with hz' | ⟨m, s, hz', hlt⟩ | hz' <;> rw [hroley, hz']
            · trivial
            · exact .inl hlt
            · exact .inr ⟨rfl, rfl, rfl⟩
          · rcases hcases z (by simp [hz]) with hz' | ⟨m, s, hz', hlt⟩ | hz'
            · rw [hroley, hz']
              trivial
            · rw [hroley, hz']
              exact .inl hlt
            · exact absurd hz' (hpost z hz)
        | true =>
          obtain ⟨pre, y, post, rfl, hroley, hpre⟩ := hfirst
          refine hbuild pre y post rfl hroley (fun z hz => ?_) fun z hz => ?_
          · rcases hcases z (by simp [hz]) with hz' | ⟨m, s, hz', hlt⟩ | hz'
            · rw [hroley, hz']
              trivial
            · rw [hroley, hz']
              exact .inl hlt
            · exact absurd hz' (hpre z hz)
          · rcases hcases z (by simp [hz]) with hz' | ⟨m, s, hz', hlt⟩ | hz' <;> rw [hroley, hz']
            · trivial
            · exact .inl hlt
            · exact .inr ⟨rfl, rfl, rfl⟩
      · refine (exists_applied hne fun x hx => role_eq_operand ?_).imp fun t ht => ⟨.applied ht.1, ht.2⟩
        rintro ⟨n, side, hrole⟩
        exact hop ⟨n, x, hx, side, hrole⟩

end MLton.OperatorTree
