import MLton.Elaborate.PrecedenceParse

/-!
# Elaborate/PrecedenceRight — infix resolution is right

As long as `parse` reports no error, the stack holds proper trees that stand next to each other rightly
(`Sound`), so what it returns is proper.  The other way round, it returns any proper tree when it is given
its items, without an error (`parse_leaves`).  Both together say that the tree is the only proper one, and
that errors are reported exactly for the lists that no tree is proper for.
-/

namespace MLton.PrecedenceParse

open OperatorTree OpTree

variable {α R : Type*} {A : Args α R} {fix : α → Fixity} {errors errors' : List (Error R)}
  {S S' p : PrecStack (OpTree α)} {a op : α} {e t : OpTree α} {n : ℕ} {side : Bool}

/-! ## Precedences -/

/-- The precedence of an operator to its left. -/
def lbp : Role → ℕ
  | .operator n side => n + n + side.toNat
  | .operand => 0

/-- The precedence of an operator to its right. -/
def rbp : Role → ℕ
  | .operator n side => n + n + (!side).toNat
  | .operand => 0

/-- The items have the fixities that `fix` says. -/
def Args.Fixes (A : Args α R) (fix : α → Fixity) : Prop := ∀ a, A.fixval a = Fixval.eval (fix a)

/-- The role of an item. -/
def roleOf (fix : α → Fixity) (a : α) : Role := (fix a).role

theorem Args.Fixes.operand (h : A.Fixes fix) (ha : roleOf fix a = .operand) :
    A.trees.fixval (leaf a) = .nonfix := by
  change A.fixval a = _
  rw [h a]
  cases hfix : fix a with
  | nonfix => rfl
  | left | right => simp [roleOf, hfix, Fixity.role] at ha

theorem Args.Fixes.operator (h : A.Fixes fix) (ha : IsOperator (roleOf fix) a) :
    A.trees.fixval (leaf a) = .op (lbp (roleOf fix a)) (rbp (roleOf fix a)) := by
  obtain ⟨n, side, ha⟩ := ha
  change A.fixval a = _
  rw [h a]
  cases hfix : fix a with
  | nonfix => simp [roleOf, hfix, Fixity.role] at ha
  | left level => cases level <;> simp [roleOf, hfix, Fixity.role, Fixval.eval, lbp, rbp]
  | right level => cases level <;> simp [roleOf, hfix, Fixity.role, Fixval.eval, lbp, rbp]

/-- **Precedences compare as levels and sides do.** -/
theorem allowsLeft_iff {r r' : Role} (hr : r ≠ .operand) (hr' : r' ≠ .operand) :
    AllowsLeft r r' ↔ lbp r < rbp r' := by
  cases r with
  | operand => exact absurd rfl hr
  | operator n side =>
    cases r' with
    | operand => exact absurd rfl hr'
    | operator n' side' => cases side <;> cases side' <;> simp [AllowsLeft, lbp, rbp] <;> omega

theorem allowsRight_iff {r r' : Role} (hr : r ≠ .operand) (hr' : r' ≠ .operand) :
    AllowsRight r r' ↔ rbp r < lbp r' := by
  cases r with
  | operand => exact absurd rfl hr
  | operator n side =>
    cases r' with
    | operand => exact absurd rfl hr'
    | operator n' side' => cases side <;> cases side' <;> simp [AllowsRight, lbp, rbp] <;> omega

theorem role_ne_operand (h : IsOperator (roleOf fix) a) : roleOf fix a ≠ .operand := by
  obtain ⟨n, side, h⟩ := h
  rw [h]
  exact nofun

/-! ## No error, then a proper tree -/

/-- The operand may stand on the stack: on the right of the operator there. -/
def Room (fix : α → Fixity) : PrecStack (OpTree α) → Option α → Prop
  | .inf _ (leaf op) _, root => ∀ o ∈ root, AllowsRight (roleOf fix op) (roleOf fix o)
  | _, _ => True

/-- **What an operand may stand on, as long as there is no error.** -/
inductive SoundBelow (fix : α → Fixity) : PrecStack (OpTree α) → Prop
  | nilf : SoundBelow fix .nilf
  | inf {op : α} {e : OpTree α} {p : PrecStack (OpTree α)} : SoundBelow fix p → Proper (roleOf fix) e →
      Room fix p e.root → IsOperator (roleOf fix) op →
      (∀ o ∈ e.root, AllowsLeft (roleOf fix op) (roleOf fix o)) → Room fix p (some op) →
      SoundBelow fix (.inf (rbp (roleOf fix op)) (leaf op) (.nonf e p))

/-- **What the stack looks like between two items, as long as there is no error.** -/
inductive Sound (fix : α → Fixity) : PrecStack (OpTree α) → Prop
  | nonf {e : OpTree α} {p : PrecStack (OpTree α)} : SoundBelow fix p → Applied (roleOf fix) e →
      Sound fix (.nonf e p)
  | inf {bp : ℕ} {op e : OpTree α} {p : PrecStack (OpTree α)} : SoundBelow fix (.inf bp op (.nonf e p)) →
      Sound fix (.inf bp op (.nonf e p))

theorem SoundBelow.toBelow (h : SoundBelow fix p) : Below p := by
  induction h with
  | nilf => exact .nilf
  | inf _ _ _ _ _ _ ih => exact .inf ih

theorem Sound.running (h : Sound fix S) : Running S := by
  cases h with
  | nonf hp _ => exact .nonf hp.toBelow
  | inf hp =>
    cases hp.toBelow with
    | inf hp => exact .inf hp

theorem room_none : Room fix p none := by
  unfold Room
  split
  · simp
  · trivial

/-- **An operator behind an operand**, without an error. -/
theorem parseToken_op_sound (hp : SoundBelow fix p) (hop : IsOperator (roleOf fix) op) :
    ∀ {e : OpTree α}, Proper (roleOf fix) e → Room fix p e.root →
      (∀ o ∈ e.root, AllowsLeft (roleOf fix op) (roleOf fix o)) →
      A.trees.parseToken errors (.nonf e p) (leaf op, .op (lbp (roleOf fix op)) (rbp (roleOf fix op))) =
        .ok (errors, S') → Sound fix S' := by
  induction hp with
  | nilf =>
    intro e he hroom hleft h
    rw [Args.parseToken] at h
    · obtain ⟨-, rfl⟩ := Prod.mk.inj (Except.ok.inj h)
      exact .inf (.inf .nilf he hroom hop hleft trivial)
    · simp
  | @inf op₀ e₀ r hr he₀ hroom₀ hop₀ hleft₀ hroom' ih =>
    intro e he hroom hleft h
    rw [Args.parseToken] at h
    split at h
    · next hlt =>
      obtain ⟨-, rfl⟩ := Prod.mk.inj (Except.ok.inj h)
      have hright : AllowsRight (roleOf fix op₀) (roleOf fix op) :=
        (allowsRight_iff (role_ne_operand hop₀) (role_ne_operand hop)).mpr hlt
      refine .inf (.inf (.inf hr he₀ hroom₀ hop₀ hleft₀ hroom') he hroom hop hleft fun o ho => ?_)
      obtain rfl := Option.some.inj ho
      exact hright
    · next hle =>
      split at h
      · -- An error is reported, and stays.
        obtain ⟨errors', e', p', heq, -, -, hprefix⟩ := parseToken_op_ok (A := A) hr.toBelow
          (lbp (roleOf fix op)) (rbp (roleOf fix op)) (A.trees.applyInfix (leaf op₀) e₀ e) _
        obtain ⟨rfl, -⟩ := Prod.mk.inj (Except.ok.inj (heq.symm.trans h))
        exact absurd hprefix.length_le (by simp)
      · next hne =>
        have hallows : AllowsLeft (roleOf fix op) (roleOf fix op₀) :=
          (allowsLeft_iff (role_ne_operand hop) (role_ne_operand hop₀)).mpr (by omega)
        refine ih (.appInfix hop₀ he₀ he hleft₀ hroom) ?_ ?_ h
        · exact hroom'
        · intro o ho
          obtain rfl := Option.some.inj ho
          exact hallows

/-- **One item**, without an error. -/
theorem Sound.parseToken (hA : A.Fixes fix) (hS : Sound fix S)
    (h : A.trees.parseToken errors S (leaf a, A.trees.fixval (leaf a)) = .ok (errors, S')) :
    Sound fix S' := by
  by_cases hop : IsOperator (roleOf fix) a
  · rw [hA.operator hop] at h
    cases hS with
    | nonf hp he =>
      refine parseToken_op_sound hp hop (.applied he) ?_ ?_ h
      · rw [he.root_eq]
        exact room_none
      · simp [he.root_eq]
    | inf hp =>
      rw [Args.parseToken] at h
      have := (Prod.mk.inj (Except.ok.inj h)).1
      simp at this
  · have ha := role_eq_operand hop
    rw [hA.operand ha] at h
    cases hS with
    | nonf hp he =>
      rw [Args.parseToken] at h
      obtain ⟨-, rfl⟩ := Prod.mk.inj (Except.ok.inj h)
      exact .nonf hp (.app he ha)
    | inf hp =>
      rw [Args.parseToken] at h
      obtain ⟨-, rfl⟩ := Prod.mk.inj (Except.ok.inj h)
      exact .nonf hp (.leaf ha)

/-- **All the items**, without an error. -/
theorem Sound.feed (hA : A.Fixes fix) : ∀ {items : List α} {errors : List (Error R)}
    {S : PrecStack (OpTree α)}, Sound fix S →
    A.trees.feed (errors, S) (items.map leaf) = .ok (errors, S') → Sound fix S'
  | [], errors, S, hS, h => by
      obtain ⟨-, rfl⟩ := Prod.mk.inj (Except.ok.inj h)
      exact hS
  | item :: items, errors, S, hS, h => by
      rw [List.map_cons, Args.feed, List.foldlM_cons] at h
      obtain ⟨errors₁, S₁, heq, hrun, -, hprefix⟩ := parseToken_ok (A := A) hS.running errors
        item (A.trees.fixval (leaf item))
      rw [heq] at h
      obtain ⟨errors₂, S₂, heq₂, -, -, hprefix₂⟩ := feed_ok (A := A) items errors₁ hrun
      obtain ⟨rfl, -⟩ := Prod.mk.inj (Except.ok.inj (heq₂.symm.trans h))
      obtain rfl := hprefix.eq_of_length_le hprefix₂.length_le
      exact Sound.feed hA (hS.parseToken hA heq) h

/-- The operators that are left are applied. -/
theorem finish_sound (hp : SoundBelow fix p) : ∀ {e : OpTree α}, Proper (roleOf fix) e → Room fix p e.root →
    A.trees.finish errors (.nonf e p) = .ok (errors', t) → Proper (roleOf fix) t := by
  induction hp with
  | nilf =>
    intro e he _ h
    rw [Args.finish] at h
    obtain ⟨-, rfl⟩ := Prod.mk.inj (Except.ok.inj h)
    exact he
  | inf hr he₀ hroom₀ hop₀ hleft₀ hroom' ih =>
    intro e he hroom h
    rw [Args.finish] at h
    exact ih (.appInfix hop₀ he₀ he hleft₀ hroom) hroom' h

/-- **Without an error the tree is proper.** -/
theorem parse_proper (hA : A.Fixes fix) {items : List α}
    (h : A.trees.parse (items.map leaf) = .ok ([], t)) : Proper (roleOf fix) t := by
  cases items with
  | nil => exact absurd h nofun
  | cons item items =>
    rw [List.map_cons, Args.parse, Args.start] at h
    obtain ⟨errors₀, hstart, -⟩ := ensureNONf_ok (A := A) [] item (A.trees.fixval (leaf item)) .nilf true
    obtain ⟨errors₁, S, hfeed, hrun, -, hprefix₁⟩ := feed_ok (A := A) items errors₀
      (Running.nonf (e := leaf item) .nilf)
    obtain ⟨errors₂, t', hfinish, -, hprefix₂⟩ := finish_ok (A := A) hrun errors₁
    rw [hstart, hfeed] at h
    obtain ⟨rfl, rfl⟩ := Prod.mk.inj (Except.ok.inj (hfinish.symm.trans h))
    obtain rfl := List.prefix_nil.mp hprefix₂
    obtain rfl := List.prefix_nil.mp hprefix₁
    have hitem : roleOf fix item = .operand := by
      by_contra hne
      have hop : IsOperator (roleOf fix) item := by
        by_contra hop
        exact hne (role_eq_operand hop)
      rw [hA.operator hop] at hstart
      exact absurd (Prod.mk.inj hstart).1 (by simp)
    have hS := Sound.feed hA (.nonf .nilf (.leaf hitem)) hfeed
    cases hS with
    | nonf hp he =>
      refine finish_sound hp (.applied he) ?_ hfinish
      rw [he.root_eq]
      exact room_none
    | @inf bp op e p hp =>
      cases hp.toBelow with
      | inf hbelow =>
        rw [Args.finish] at hfinish
        obtain ⟨t'', hfinish', -⟩ := finish_nonf_ok (A := A) hbelow (A.trees.apply e op)
          ([] ++ [⟨A.trees.region op, A.trees.name ++ " ends with infix identifier: " ++
            A.trees.toString op⟩])
        exact absurd (Prod.mk.inj (Except.ok.inj (hfinish'.symm.trans hfinish))).1 (by simp)

/-! ## A proper tree, then no error -/

/-- The stack after the items of a proper tree. -/
def spine (fix : α → Fixity) : OpTree α → PrecStack (OpTree α) → PrecStack (OpTree α)
  | appInfix (leaf op) argl argr, p =>
    spine fix argr (.inf (rbp (roleOf fix op)) (leaf op) (.nonf argl p))
  | t, p => .nonf t p

/-- Between two items, what the next operand stands on. -/
def Ready (fix : α → Fixity) (p : PrecStack (OpTree α)) : Prop :=
  p = .nilf ∨ ∃ op q, IsOperator (roleOf fix) op ∧ p = .inf (rbp (roleOf fix op)) (leaf op) q

theorem spine_of_root (h : t.root = none) : spine fix t p = .nonf t p := by
  cases t with
  | leaf | app => rfl
  | appInfix func argl argr =>
    cases func with
    | leaf op => simp [root] at h
    | app | appInfix => rfl

/-- **An operator that binds less** finds the tree as one operand. -/
theorem parseToken_spine (hop : IsOperator (roleOf fix) op) (ht : Proper (roleOf fix) t) :
    ∀ {p : PrecStack (OpTree α)}, (∀ o ∈ t.root, AllowsLeft (roleOf fix op) (roleOf fix o)) →
      A.trees.parseToken errors (spine fix t p) (leaf op, .op (lbp (roleOf fix op)) (rbp (roleOf fix op))) =
        A.trees.parseToken errors (.nonf t p)
          (leaf op, .op (lbp (roleOf fix op)) (rbp (roleOf fix op))) := by
  induction ht with
  | applied h => exact fun {p} _ => by rw [spine_of_root h.root_eq]
  | @appInfix op₀ argl argr hop₀ _ _ _ hright _ ihr =>
    intro p hleft
    have hallows := hleft op₀ rfl
    obtain ⟨n, side, hrole⟩ := hop₀
    have hless := (allowsLeft_iff (role_ne_operand hop) (role_ne_operand ⟨n, side, hrole⟩)).mp hallows
    rw [spine, ihr fun o ho => hallows.trans_right hrole (hright o ho), Args.parseToken, if_neg (by omega),
      if_neg (by omega)]
    rfl

theorem finish_spine (ht : Proper (roleOf fix) t) : ∀ {p : PrecStack (OpTree α)},
    A.trees.finish errors (spine fix t p) = A.trees.finish errors (.nonf t p) := by
  induction ht with
  | applied h => exact fun {p} => by rw [spine_of_root h.root_eq]
  | appInfix _ _ _ _ _ _ ihr =>
    intro p
    rw [spine, ihr, Args.finish]
    rfl

/-- One item, the first one included. -/
def Args.next (A : Args α R) (acc : List (Error R) × PrecStack (OpTree α)) (a : α) :
    Except String (List (Error R) × PrecStack (OpTree α)) :=
  match acc with
  | (errors, .nilf) => .ok (A.trees.ensureNONf (leaf a, A.trees.fixval (leaf a)) .nilf true errors)
  | (errors, stack) => A.trees.parseToken errors stack (leaf a, A.trees.fixval (leaf a))

theorem spine_ne_nilf : ∀ {t : OpTree α} {p : PrecStack (OpTree α)}, spine fix t p ≠ .nilf
  | leaf _, _ => nofun
  | app _ _, _ => nofun
  | appInfix (leaf _) _ argr, _ => spine_ne_nilf (t := argr)
  | appInfix (app _ _) _ _, _ => nofun
  | appInfix (appInfix _ _ _) _ _, _ => nofun

theorem next_eq (h : S ≠ .nilf) :
    A.next (errors, S) a = A.trees.parseToken errors S (leaf a, A.trees.fixval (leaf a)) := by
  cases S with
  | nilf => exact absurd rfl h
  | inf | nonf => rfl

theorem next_operand (hA : A.Fixes fix) (hp : Ready fix p) (ha : roleOf fix a = .operand) :
    A.next (errors, p) a = .ok (errors, .nonf (leaf a) p) := by
  rcases hp with rfl | ⟨op, q, -, rfl⟩
  · rw [Args.next, hA.operand ha]
    rfl
  · have hne : PrecStack.inf (rbp (roleOf fix op)) (leaf op) q ≠ .nilf := nofun
    rw [next_eq hne, hA.operand ha, Args.parseToken]
    rfl

/-- **An operator is pushed** on what it binds more than. -/
theorem parseToken_push (hop : IsOperator (roleOf fix) op) (hp : Ready fix p) (hroom : Room fix p (some op)) :
    A.trees.parseToken errors (.nonf t p) (leaf op, .op (lbp (roleOf fix op)) (rbp (roleOf fix op))) =
      .ok (errors, .inf (rbp (roleOf fix op)) (leaf op) (.nonf t p)) := by
  rcases hp with rfl | ⟨op₀, q, hop₀, rfl⟩
  · rw [Args.parseToken]
    simp
  · have hless : rbp (roleOf fix op₀) < lbp (roleOf fix op) :=
      (allowsRight_iff (role_ne_operand hop₀) (role_ne_operand hop)).mp (hroom op rfl)
    cases q with
    | nonf e q => rw [Args.parseToken, if_pos hless]
    | inf | nilf =>
      rw [Args.parseToken]
      simp

theorem Room.left (hop : IsOperator (roleOf fix) op) (hroom : Room fix p (some op))
    (hleft : ∀ o ∈ t.root, AllowsLeft (roleOf fix op) (roleOf fix o)) : Room fix p t.root := by
  obtain ⟨n, side, hrole⟩ := hop
  unfold Room at hroom ⊢
  split at hroom
  · exact fun o ho => (hroom op rfl).trans_left hrole (hleft o ho)
  · trivial

/-- **The items of a proper tree**, without an error. -/
theorem next_leaves (hA : A.Fixes fix) (ht : Proper (roleOf fix) t) : ∀ {p : PrecStack (OpTree α)},
    Ready fix p → Room fix p t.root →
      t.leaves.foldlM A.next (errors, p) = .ok (errors, spine fix t p) := by
  induction ht with
  | applied h =>
    intro p hp _
    rw [spine_of_root h.root_eq]
    induction h with
    | leaf ha =>
      rw [leaves, List.foldlM_cons, next_operand hA hp ha]
      rfl
    | @app func a hf ha ih =>
      rw [leaves, List.foldlM_append, ih (by rw [hf.root_eq]; exact room_none), leaves]
      change A.next (errors, .nonf func p) a >>= _ = _
      have hne : PrecStack.nonf func p ≠ .nilf := by rintro ⟨⟩
      rw [next_eq hne, hA.operand ha, Args.parseToken]
      rfl
  | @appInfix op argl argr hop hl hr hleft hright ihl ihr =>
    intro p hp hroom
    rw [leaves, List.foldlM_append, ihl hp (hroom.left hop hleft), leaves]
    change A.next _ _ >>= _ = _
    rw [next_eq spine_ne_nilf, hA.operator hop, parseToken_spine hop hl hleft, parseToken_push hop hp hroom]
    exact ihr (.inr ⟨op, _, hop, rfl⟩) hright

theorem parseToken_ne_nilf {token : OpTree α × Fixval}
    (h : A.trees.parseToken errors S token = .ok (errors', S')) : S' ≠ .nilf := by
  fun_induction Args.parseToken A.trees errors S token with
  | case4 _ _ _ _ _ _ _ _ _ _ _ ih => exact ih h
  | case2 errors bp e r token =>
    obtain ⟨t, fv⟩ := token
    cases fv <;> (obtain ⟨-, rfl⟩ := Prod.mk.inj (Except.ok.inj h); rintro ⟨⟩)
  | case6 => cases h
  | case1 | case3 | case5 =>
    obtain ⟨-, rfl⟩ := Prod.mk.inj (Except.ok.inj h)
    rintro ⟨⟩

theorem foldlM_next : ∀ {items : List α} {errors : List (Error R)} {S : PrecStack (OpTree α)}, S ≠ .nilf →
    items.foldlM A.next (errors, S) = A.trees.feed (errors, S) (items.map leaf)
  | [], _, _, _ => rfl
  | item :: items, errors, S, hS => by
      rw [List.foldlM_cons, List.map_cons, Args.feed, List.foldlM_cons, next_eq hS]
      cases h : A.trees.parseToken errors S (leaf item, A.trees.fixval (leaf item)) with
      | error bug => rfl
      | ok r => exact foldlM_next (parseToken_ne_nilf h)

/-- **`parse` returns a proper tree from its items**, and reports no error. -/
theorem parse_leaves (hA : A.Fixes fix) (ht : Proper (roleOf fix) t) :
    A.trees.parse (t.leaves.map leaf) = .ok ([], t) := by
  have hnext : t.leaves.foldlM A.next ([], .nilf) = .ok ([], spine fix t .nilf) :=
    next_leaves hA ht (.inl rfl) trivial
  cases hleaves : t.leaves with
  | nil => exact absurd hleaves ht.leaves_ne_nil
  | cons item items =>
    obtain ⟨errors₀, hstart, -⟩ := ensureNONf_ok (A := A) [] item (A.trees.fixval (leaf item)) .nilf true
    have hne : PrecStack.nonf (leaf item) .nilf ≠ .nilf := nofun
    rw [hleaves, List.foldlM_cons, Args.next, hstart] at hnext
    change items.foldlM A.next (errors₀, .nonf (leaf item) .nilf) = _ at hnext
    rw [foldlM_next hne] at hnext
    rw [List.map_cons, Args.parse, Args.start, hstart, hnext]
    change A.trees.finish [] (spine fix t .nilf) = _
    rw [finish_spine ht, Args.finish]

/-! ## Both ways -/

/-- **Infix resolution.**  `parse` never gets to a bug.  The tree whose value it returns has the items in
order; it reports no error exactly if the list is regular, and then the tree is the only one over the items
that respects levels and sides.  If it reports an error, there is no such tree. -/
theorem parse_right (hA : A.Fixes fix) {items : List α} (hne : items ≠ []) : ∃ errors t,
    A.parse items = .ok (errors, A.value t) ∧ t.leaves = items ∧
      (errors = [] ↔ Regular (roleOf fix) items) ∧
      ∀ t' : OpTree α, t'.leaves = items → (Proper (roleOf fix) t' ↔ errors = [] ∧ t' = t) := by
  obtain ⟨errors, t, hparse, hleaves⟩ := parse_ok (A := A) hne
  have hproper : ∀ t' : OpTree α, t'.leaves = items → (Proper (roleOf fix) t' ↔ errors = [] ∧ t' = t) := by
    intro t' hleaves'
    constructor
    · intro ht'
      have hparse' := parse_leaves hA ht'
      rw [hleaves', hparse] at hparse'
      obtain ⟨rfl, rfl⟩ := Prod.mk.inj (Except.ok.inj hparse')
      exact ⟨rfl, rfl⟩
    · rintro ⟨rfl, rfl⟩
      exact parse_proper hA hparse
  refine ⟨errors, t, by rw [parse_eval, hparse]; rfl, hleaves, ?_, hproper⟩
  constructor
  · intro herrors
    rw [← hleaves]
    exact ((hproper t hleaves).mpr ⟨herrors, rfl⟩).regular
  · intro hregular
    obtain ⟨t', ht', hleaves'⟩ := hregular.exists_proper le_rfl hne
    exact ((hproper t' hleaves').mp ht').1

/-- The fixity of a tree of fixities. -/
def treeFixity : OpTree Fixity → Fixity
  | leaf f => f
  | _ => .nonfix

/-- Items that are fixities. -/
def ofFixities : Args (OpTree Fixity) Unit where
  append _ _ := ()
  apply := app
  applyInfix := appInfix
  fixval t := Fixval.eval (treeFixity t)
  name := "expression"
  region _ := ()
  toString _ := "item"

/-- `1 + 2 * 3`. -/
theorem parse_right_sum :
    ofFixities.Fixes treeFixity ∧
      ∃ errors t,
        ofFixities.parse [leaf .nonfix, leaf (.left (some 6)), leaf .nonfix, leaf (.left (some 7)),
            leaf .nonfix] = .ok (errors, ofFixities.value t) ∧
          t.leaves = [leaf .nonfix, leaf (.left (some 6)), leaf .nonfix, leaf (.left (some 7)),
            leaf .nonfix] ∧
          (errors = [] ↔ Regular (roleOf treeFixity) [leaf .nonfix, leaf (.left (some 6)), leaf .nonfix,
            leaf (.left (some 7)), leaf .nonfix]) ∧
          ∀ t' : OpTree (OpTree Fixity), t'.leaves = [leaf .nonfix, leaf (.left (some 6)), leaf .nonfix,
            leaf (.left (some 7)), leaf .nonfix] →
            (Proper (roleOf treeFixity) t' ↔ errors = [] ∧ t' = t) :=
  ⟨fun _ => rfl, parse_right (A := ofFixities) (show ofFixities.Fixes treeFixity from fun _ => rfl) (by simp)⟩

/-- `a :: b + c`, with both operators at one level. -/
def mixedSides : List (OpTree Fixity) :=
  [leaf .nonfix, leaf (.right (some 5)), leaf .nonfix, leaf (.left (some 5)), leaf .nonfix]

/-- **Operators of one level that associate differently**: `parse` reports an error, and no tree over the
items respects levels and sides, the one that it returns included. -/
theorem mixedSides_not_proper :
    (ofFixities.parse mixedSides = .ok
      ([⟨(), "infix identifiers with equal precedence but mixed associativity: item, item"⟩],
        appInfix (leaf (.left (some 5)))
          (appInfix (leaf (.right (some 5))) (leaf .nonfix) (leaf .nonfix)) (leaf .nonfix))) ∧
      ¬ ∃ errors t, ofFixities.parse mixedSides = .ok (errors, ofFixities.value t) ∧
        t.leaves = mixedSides ∧ Proper (roleOf treeFixity) t := by
  constructor
  · simp [mixedSides, ofFixities, Args.parse, Args.start, Args.ensureNONf, Args.feed, treeFixity,
      Fixval.eval, Args.parseToken, Args.finish, bind, Except.bind, pure, Except.pure]
  · rintro ⟨errors, t, -, hleaves, ht⟩
    have hregular := ht.regular
    rw [hleaves] at hregular
    have := hregular.agree 1 3 (leaf (.right (some 5))) (leaf (.left (some 5))) 5 true false (by omega) rfl rfl
      rfl rfl ?_
    · exact absurd this (by decide)
    · intro k z m right hk hk' hz hrole
      obtain rfl : k = 2 := by omega
      obtain rfl := Option.some.inj hz
      cases hrole

end MLton.PrecedenceParse
