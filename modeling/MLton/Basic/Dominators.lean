import MLton.Basic.DirectedGraph
import MLton.Machinery.Dominance
import Mathlib.Algebra.Order.BigOperators.Group.Finset

/-!
# Basic/Dominators — the simple and fast dominance algorithm

Nodes are numbered in postorder from the root, so that the root has the highest number.  The array of
immediate dominators starts out unknown except at the root; sweeps in decreasing order of the numbers
set each entry to the nearest common ancestor of the known predecessors, until a sweep changes nothing.
-/

namespace MLton.DirectedGraph

variable {ν : Type*} [DecidableEq ν]

/-- `idomRes`. -/
inductive IdomRes (ν : Type*) where
  | idom (n : ν)
  | root
  | unreachable
deriving DecidableEq

namespace Dominators

/-- `nodes`: the nodes reachable from the root, each at its number. -/
def order (g : DirectedGraph ν) (root : ν) : List ν :=
  (Dfs.search g.successors (fun ns _ => ns) (fun ns v => ns ++ [v]) (g.nodes.length + 1) [] root).2

/-- `preds`, given the nodes: the numbers of the predecessors of a number, highest first. -/
def preds (g : DirectedGraph ν) (nodes : List ν) (t : ℕ) : List ℕ :=
  (nodes.zipIdx.flatMap fun (v, i) =>
    ((g.successors v).filter fun w => nodes.idxOf w = t).map fun _ => i).reverse

/-- The array of immediate dominators; `none` is `unknown`. -/
abbrev Idoms := ℕ → Option ℕ

/-- `up`: from `f` towards the root, as far as `t`.  The first number bounds the steps; an unknown entry
is never an index. -/
def up (idom : Idoms) : ℕ → ℕ → ℕ → Option ℕ
  | 0, _, _ => none
  | k + 1, f, t => if f < t then (idom f).bind fun d => up idom k d t else some f

/-- `intersect`: the nearest common ancestor.  The first number bounds the steps. -/
def intersect (idom : Idoms) : ℕ → ℕ → ℕ → Option ℕ
  | 0, _, _ => none
  | k + 1, n₁, n₂ =>
    if n₁ = n₂ then some n₁
    else do
      let n₁ ← up idom k n₁ n₂
      let n₂ ← up idom k n₂ n₁
      intersect idom k n₁ n₂

/-- The new entry of a node, from its predecessors; there is none where the source has its `Fail`. -/
def newIdom (idom : Idoms) (k : ℕ) : List ℕ → Option ℕ
  | [] => none
  | p :: ps => ps.foldlM (fun new j => if (idom j).isSome then intersect idom k new j else some new) p

/-- One node of a sweep. -/
def sweepNode (preds : ℕ → List ℕ) (k : ℕ) (st : Idoms × Bool) (i : ℕ) : Option (Idoms × Bool) := do
  let new ← newIdom st.1 k (preds i)
  if st.1 i ≠ some new then pure (Function.update st.1 i (some new), true) else pure st

/-- One sweep over the numbers below the root's. -/
def sweep (preds : ℕ → List ℕ) (rootNum : ℕ) (idom : Idoms) : Option (Idoms × Bool) :=
  (List.range rootNum).reverse.foldlM (sweepNode preds (2 * rootNum + 2)) (idom, false)

/-- `iterate`.  The first number bounds the sweeps. -/
def iterate (preds : ℕ → List ℕ) (rootNum : ℕ) : ℕ → Idoms → Option Idoms
  | 0, _ => none
  | k + 1, idom => do
    let (idom, changed) ← sweep preds rootNum idom
    if changed then iterate preds rootNum k idom else pure idom

end Dominators

open Dominators in
/-- `dominators`: the immediate dominator of each node.  It fails if a bound is too small, or an unknown
entry is used as an index. -/
def dominators (g : DirectedGraph ν) (root : ν) : Option (ν → IdomRes ν) :=
  let nodes := order g root
  let rootNum := nodes.length - 1
  let init : Idoms := Function.update (fun _ => none) rootNum (some rootNum)
  (iterate (preds g nodes) rootNum (rootNum * rootNum + 2) init).map fun idoms n =>
    if n = root then .root
    else if n ∈ nodes then
      match (idoms (nodes.idxOf n)).bind (nodes[·]?) with
      | some d => .idom d
      | none => .unreachable
    else .unreachable

end MLton.DirectedGraph

/-!
## The dominance algorithm computes immediate dominators

The first part is about numbers only: a root with the highest number, and predecessors such that the
first predecessor of every other number is higher.  `Anc` is ancestry in the array at hand.  Two things
hold all along: the dominators of a number are among its ancestors (`Inv.dom`), and an ancestor leads
down to the number through smaller numbers (`Inv.under`).  From one sweep to the next ancestors only get
lost (`Inv.join`), which is why the sweeps come to an end; where a sweep changes nothing, ancestors
dominate (`dominates_of_settled`).
-/

namespace MLton.DirectedGraph

namespace Dominators

/-- One number is another's ancestor in the array. -/
abbrev Anc (idom : Idoms) : ℕ → ℕ → Prop := Relation.ReflTransGen fun i d => idom i = some d

/-- Entries are higher numbers, and known, except for the root's own. -/
structure Rising (r : ℕ) (idom : Idoms) : Prop where
  root : idom r = some r
  rise : ∀ {i d}, idom i = some d → i ≠ r → i < d ∧ d ≤ r
  known : ∀ {i d}, idom i = some d → (idom d).isSome

section Ancestors

variable {r : ℕ} {idom : Idoms} {a b c : ℕ}

theorem Anc.linear (h : Anc idom a b) (h' : Anc idom a c) : Anc idom b c ∨ Anc idom c b :=
  h.total_of_right_unique (fun _ _ _ hb hc => Option.some.inj (hb.symm.trans hc)) h'

theorem Rising.le_root (h : Rising r idom) (ha : (idom a).isSome) : a ≤ r := by
  obtain ⟨d, hd⟩ := Option.isSome_iff_exists.mp ha
  by_cases har : a = r
  · exact Nat.le_of_eq har
  · exact Nat.le_of_lt (Nat.lt_of_lt_of_le (h.rise hd har).1 (h.rise hd har).2)

theorem Rising.isSome (h : Rising r idom) (hab : Anc idom a b) (ha : (idom a).isSome) :
    (idom b).isSome := by
  induction hab with
  | refl => exact ha
  | tail _ hd _ => exact h.known hd

theorem Rising.le (h : Rising r idom) (hab : Anc idom a b) : a ≤ b := by
  induction hab with
  | refl => exact Nat.le_refl _
  | @tail b c _ hd ih =>
    by_cases hbr : b = r
    · subst hbr
      exact Nat.le_trans ih (Nat.le_of_eq (Option.some.inj (h.root.symm.trans hd)))
    · exact Nat.le_trans ih (Nat.le_of_lt (h.rise hd hbr).1)

theorem Rising.eq_root (h : Rising r idom) (hab : Anc idom r b) : b = r := by
  induction hab with
  | refl => rfl
  | tail _ hd ih => exact Option.some.inj (hd.symm.trans (ih ▸ h.root))

/-- The next ancestor. -/
theorem anc_of_ne (hab : Anc idom a b) (hne : a ≠ b) : ∃ d, idom a = some d ∧ Anc idom d b := by
  obtain rfl | ⟨d, hd, hdb⟩ := Relation.ReflTransGen.cases_head hab
  · exact absurd rfl hne
  · exact ⟨d, hd, hdb⟩

/-- Of two ancestors the lower one has the higher one as an ancestor. -/
theorem Rising.anc_of_le (h : Rising r idom) (hb : Anc idom a b) (hc : Anc idom a c) (hbc : b ≤ c) :
    Anc idom b c := by
  obtain hbc' | hcb := hb.linear hc
  · exact hbc'
  · rw [Nat.le_antisymm hbc (h.le hcb)]

/-! ## Nearest common ancestors -/

theorem up_spec (h : Rising r idom) {t : ℕ} (ht : t ≤ r) : ∀ (k f : ℕ), (idom f).isSome → r - f < k →
    ∃ f', up idom k f t = some f' ∧ Anc idom f f' ∧ t ≤ f' ∧ ∀ y, t ≤ y → Anc idom f y → Anc idom f' y
  | 0, _, _, hk => absurd hk (Nat.not_lt_zero _)
  | k + 1, f, hf, hk => by
    rw [up]
    by_cases hft : f < t
    · obtain ⟨d, hd⟩ := Option.isSome_iff_exists.mp hf
      have hfr : f ≠ r := by omega
      have hrise := h.rise hd hfr
      obtain ⟨f', hf', hanc, hle, hy⟩ := up_spec h ht k d (h.known hd) (by omega)
      refine ⟨f', by rw [if_pos hft, hd]; exact hf', hanc.head hd, hle, fun y hty hfy => ?_⟩
      obtain ⟨d', hd', hdy⟩ := anc_of_ne hfy (by omega)
      obtain rfl := Option.some.inj (hd.symm.trans hd')
      exact hy y hty hdy
    · exact ⟨f, by rw [if_neg hft], .refl, by omega, fun _ _ hfy => hfy⟩

/-- **`intersect` finds the nearest common ancestor**: its ancestors are the common ones. -/
theorem intersect_spec (h : Rising r idom) : ∀ (k n₁ n₂ : ℕ), (idom n₁).isSome → (idom n₂).isSome →
    (r - n₁) + (r - n₂) + 1 < k → ∃ w, intersect idom k n₁ n₂ = some w ∧ (idom w).isSome ∧
      ∀ y, Anc idom w y ↔ Anc idom n₁ y ∧ Anc idom n₂ y
  | 0, _, _, _, _, hk => absurd hk (Nat.not_lt_zero _)
  | k + 1, n₁, n₂, h₁, h₂, hk => by
    rw [intersect]
    by_cases heq : n₁ = n₂
    · subst heq
      exact ⟨n₁, if_pos rfl, h₁, fun y => (and_self_iff).symm⟩
    · have hr₁ := h.le_root h₁
      have hr₂ := h.le_root h₂
      obtain ⟨m₁, hm₁, hanc₁, hle₁, hy₁⟩ := up_spec h hr₂ k n₁ h₁ (by omega)
      have hn₁ := h.le hanc₁
      have hrm₁ := h.le_root (h.isSome hanc₁ h₁)
      obtain ⟨m₂, hm₂, hanc₂, hle₂, hy₂⟩ := up_spec h hrm₁ k n₂ h₂ (by omega)
      have hn₂ := h.le hanc₂
      obtain ⟨w, hw, hknown, hanc⟩ := intersect_spec h k m₁ m₂ (h.isSome hanc₁ h₁)
        (h.isSome hanc₂ h₂) (by omega)
      refine ⟨w, by simp [heq, hm₁, hm₂, hw], hknown, fun y => (hanc y).trans ⟨?_, ?_⟩⟩
      · exact fun ⟨hy₁', hy₂'⟩ => ⟨hanc₁.trans hy₁', hanc₂.trans hy₂'⟩
      · intro ⟨hy₁', hy₂'⟩
        have hm₁y := hy₁ y (h.le hy₂') hy₁'
        exact ⟨hm₁y, hy₂ y (h.le hm₁y) hy₂'⟩

theorem foldlM_intersect (h : Rising r idom) : ∀ (ps : List ℕ) (p : ℕ), (idom p).isSome →
    ∃ w, ps.foldlM (fun new j => if (idom j).isSome then intersect idom (2 * r + 2) new j
        else some new) p = some w ∧ (idom w).isSome ∧
      ∀ y, Anc idom w y ↔ Anc idom p y ∧ ∀ j ∈ ps, (idom j).isSome → Anc idom j y
  | [], p, hp => ⟨p, rfl, hp, by simp⟩
  | j :: ps, p, hp => by
    rw [List.foldlM_cons]
    by_cases hj : (idom j).isSome
    · obtain ⟨w, hw, hknown, hanc⟩ := intersect_spec h (2 * r + 2) p j hp hj (by omega)
      obtain ⟨w', hw', hknown', hanc'⟩ := foldlM_intersect h ps w hknown
      refine ⟨w', by rw [if_pos hj, hw]; exact hw', hknown', fun y => ?_⟩
      rw [hanc', hanc]
      simp only [List.mem_cons, forall_eq_or_imp, hj, forall_const, and_assoc]
    · obtain ⟨w', hw', hknown', hanc'⟩ := foldlM_intersect h ps p hp
      refine ⟨w', by rw [if_neg hj]; exact hw', hknown', fun y => ?_⟩
      rw [hanc']
      simp [hj]

/-- **The new entry is the nearest common ancestor of the known predecessors.** -/
theorem newIdom_spec (h : Rising r idom) {p : ℕ} {ps : List ℕ} (hp : (idom p).isSome) :
    ∃ w, newIdom idom (2 * r + 2) (p :: ps) = some w ∧ (idom w).isSome ∧
      ∀ y, Anc idom w y ↔ ∀ j ∈ p :: ps, (idom j).isSome → Anc idom j y := by
  obtain ⟨w, hw, hknown, hanc⟩ := foldlM_intersect h ps p hp
  exact ⟨w, hw, hknown, fun y => by rw [hanc]; simp [hp]⟩

end Ancestors

/-! ## Numbered flow graphs -/

/-- The first predecessor of a number below the root is above it and above the other ones. -/
structure Numbered (preds : ℕ → List ℕ) (r : ℕ) : Prop where
  head : ∀ {i}, i < r → ∃ p ps, preds i = p :: ps ∧ i < p
  le : ∀ {i j}, i < r → j ∈ preds i → j ≤ r

/-- A path from the root to a number that does not go through another one. -/
abbrev Avoids (preds : ℕ → List ℕ) (r d : ℕ) : ℕ → Prop :=
  Dominance.Avoids (fun j k => j ∈ preds k) r (· = d)

/-- A path through numbers up to its first. -/
inductive Under (preds : ℕ → List ℕ) (i : ℕ) : ℕ → Prop
  | refl : Under preds i i
  | step {j k : ℕ} (hj : Under preds i j) (hjk : j ∈ preds k) (hle : k ≤ i) : Under preds i k

section Flow

variable {preds : ℕ → List ℕ} {r : ℕ} {idom : Idoms} {a b c d i k w y : ℕ}

theorem Under.trans (hab : Under preds a b) (hbc : Under preds b c) (hle : b ≤ a) :
    Under preds a c := by
  induction hbc with
  | refl => exact hab
  | step _ hjk hk ih => exact ih.step hjk (Nat.le_trans hk hle)

theorem Avoids.under (h : Avoids preds r d i) (hik : Under preds i k) (hid : i < d) :
    Avoids preds r d k := by
  induction hik with
  | refl => exact h
  | step _ hjk hk ih => exact ih.step hjk (Nat.ne_of_lt (Nat.lt_of_le_of_lt hk hid))

/-- What holds of the array all along. -/
structure Inv (preds : ℕ → List ℕ) (r : ℕ) (idom : Idoms) : Prop extends Rising r idom where
  head : ∀ {i d p ps}, i < r → idom i = some d → preds i = p :: ps → p ≤ d
  under : ∀ {i d}, i < r → idom i = some d → Under preds d i
  dom : ∀ {k d}, (idom k).isSome → ¬ Avoids preds r d k → Anc idom k d
  join : ∀ {k y}, k < r → (idom k).isSome →
    (∀ j ∈ preds k, (idom j).isSome → Anc idom j y) → Anc idom k y

/-- The ancestors of a number are those of its first predecessor: all of them, for the numbers from `m`
on, which the sweep has seen; those up to `m`, for the other ones. -/
def Chained (preds : ℕ → List ℕ) (r m : ℕ) (idom : Idoms) : Prop :=
  ∀ {k p ps y}, k < r → (idom k).isSome → preds k = p :: ps → Anc idom k y → y ≠ k →
    (m ≤ k ∨ y ≤ m) → Anc idom p y

theorem Inv.under_of_anc (h : Inv preds r idom) (hkd : Anc idom k d) :
    Under preds d k := by
  induction hkd with
  | refl => exact .refl
  | @tail b c hkb hbc ih =>
    by_cases hbr : b = r
    · obtain rfl : c = b := by
        subst hbr
        exact Option.some.inj (hbc.symm.trans h.root)
      exact ih
    · have hrise := h.rise hbc hbr
      exact (h.under (Nat.lt_of_lt_of_le hrise.1 hrise.2) hbc).trans ih (Nat.le_of_lt hrise.1)

/-! ## Setting one entry -/

section Update

theorem anc_update_of_not (hki : ¬ Anc idom k i) :
    Anc (Function.update idom i (some w)) k y ↔ Anc idom k y := by
  constructor
  · intro h
    induction h with
    | refl => exact .refl
    | tail _ hd ih =>
      refine ih.tail ?_
      rwa [Function.update_of_ne fun hbi => hki (by rwa [← hbi])] at hd
  · intro h
    induction h with
    | refl => exact .refl
    | tail hb hd ih =>
      refine ih.tail ?_
      rwa [Function.update_of_ne fun hbi => hki (by rwa [← hbi])]

/-- Ancestors up to the entry stay ancestors. -/
theorem Rising.anc_update_of_le (h : Rising r idom) (hy : y ≤ i) (hky : Anc idom k y) :
    Anc (Function.update idom i (some w)) k y := by
  induction hky with
  | refl => exact .refl
  | @tail b c _ hd ih =>
    by_cases hbr : b = r
    · obtain rfl : c = b := by
        subst hbr
        exact Option.some.inj (hd.symm.trans h.root)
      exact ih hy
    · have hbc := (h.rise hd hbr).1
      refine (ih (by omega)).tail ?_
      rwa [Function.update_of_ne (by omega)]

theorem Rising.not_anc_of_lt (h : Rising r idom) (hik : i < k) : ¬ Anc idom k i :=
  fun hki => absurd (h.le hki) (Nat.not_le_of_lt hik)

/-- Setting an entry from the predecessors. -/
structure Sets (preds : ℕ → List ℕ) (r : ℕ) (idom : Idoms) (i w : ℕ) : Prop where
  lt : i < r
  known : (idom w).isSome
  anc : ∀ y, Anc idom w y ↔ ∀ j ∈ preds i, (idom j).isSome → Anc idom j y
  first : ∃ p ps, preds i = p :: ps ∧ i < p ∧ (idom p).isSome

variable (h : Inv preds r idom) (hs : Sets preds r idom i w)

include h hs

theorem Sets.first_le : ∃ p ps, preds i = p :: ps ∧ i < p ∧ p ≤ w ∧ (idom p).isSome ∧ Anc idom p w := by
  obtain ⟨p, ps, hps, hip, hp⟩ := hs.first
  have hpw := (hs.anc w).mp .refl p (hps ▸ List.mem_cons_self ..) hp
  exact ⟨p, ps, hps, hip, h.le hpw, hp, hpw⟩

theorem Sets.lt_new : i < w := by
  obtain ⟨p, ps, -, hip, hpw, -⟩ := hs.first_le h
  omega

/-- The new entry is an ancestor of the old one. -/
theorem Sets.anc_old (hi : idom i = some d) : Anc idom d w := by
  have hiw : Anc idom i w := h.join hs.lt (by simp [hi]) ((hs.anc w).mp .refl)
  obtain ⟨d', hd', hdw⟩ := anc_of_ne hiw (Nat.ne_of_lt (hs.lt_new h))
  obtain rfl := Option.some.inj (hi.symm.trans hd')
  exact hdw

omit hs in
/-- What lies above the entry has the ancestors it had. -/
theorem anc_update_above (hik : i < k) :
    Anc (Function.update idom i (some w)) k y ↔ Anc idom k y :=
  anc_update_of_not (h.not_anc_of_lt hik)

theorem Sets.anc_self : Anc (Function.update idom i (some w)) i y ↔ y = i ∨ Anc idom w y := by
  constructor
  · intro hy
    obtain rfl | hne := eq_or_ne y i
    · exact .inl rfl
    · obtain ⟨d, hd, hdy⟩ := anc_of_ne hy hne.symm
      obtain rfl : w = d := by simpa using hd
      exact .inr ((anc_update_above h (hs.lt_new h)).mp hdy)
  · rintro (rfl | hy)
    · exact .refl
    · exact ((anc_update_above h (hs.lt_new h)).mpr hy).head (by simp)

/-- Ancestors only get lost. -/
theorem Sets.anc_of_anc (hk : (idom k).isSome) (hky : Anc (Function.update idom i (some w)) k y) :
    Anc idom k y := by
  induction hky with
  | refl => exact .refl
  | @tail b c _ hbc ih =>
    by_cases hbi : b = i
    · subst hbi
      obtain ⟨d, hd⟩ := Option.isSome_iff_exists.mp (h.isSome ih hk)
      obtain rfl : w = c := by simpa using hbc
      exact ih.trans ((hs.anc_old h hd).head hd)
    · exact ih.tail (by rwa [Function.update_of_ne hbi] at hbc)

/-- What dominates the number at hand is among its new ancestors. -/
theorem Sets.dom_self (hd : ¬ Avoids preds r d i) : Anc (Function.update idom i (some w)) i d := by
  obtain rfl | hne := eq_or_ne i d
  · exact .refl
  · refine (hs.anc_self h).mpr (.inr ((hs.anc d).mpr fun j hj hknown => h.dom hknown ?_))
    exact fun hav => hd (hav.step hj hne)

omit h hs in
theorem known_update (hk : (idom k).isSome) : (Function.update idom i (some w) k).isSome := by
  rw [Function.update_apply]
  split <;> simp [hk]

theorem Sets.rising : Rising r (Function.update idom i (some w)) := by
  refine ⟨?_, fun {k d} hkd hkr => ?_, fun {k d} hkd => ?_⟩
  · rw [Function.update_of_ne (Nat.ne_of_gt hs.lt)]
    exact h.root
  · by_cases hki : k = i
    · subst hki
      obtain rfl : w = d := by simpa using hkd
      exact ⟨hs.lt_new h, h.le_root hs.known⟩
    · exact h.rise (by rwa [Function.update_of_ne hki] at hkd) hkr
  · refine known_update ?_
    by_cases hki : k = i
    · subst hki
      obtain rfl : w = d := by simpa using hkd
      exact hs.known
    · exact h.known (by rwa [Function.update_of_ne hki] at hkd)

theorem Sets.dom (hk : (Function.update idom i (some w) k).isSome) (hd : ¬ Avoids preds r d k) :
    Anc (Function.update idom i (some w)) k d := by
  by_cases hki : k = i
  · subst hki
    exact hs.dom_self h hd
  · rw [Function.update_of_ne hki] at hk
    have hkd := h.dom hk hd
    by_cases hanc : Anc idom k i
    · obtain hid | hdi := Nat.lt_or_ge i d
      · have hnot : ¬ Avoids preds r d i := fun hav => hd (hav.under (h.under_of_anc hanc) hid)
        exact (h.anc_update_of_le (Nat.le_refl i) hanc).trans (hs.dom_self h hnot)
      · exact h.anc_update_of_le hdi hkd
    · exact (anc_update_of_not hanc).mpr hkd

variable (hn : Numbered preds r) (hc : Chained preds r (i + 1) idom)

include hn hc

theorem Sets.join (hkr : k < r) (hk : (Function.update idom i (some w) k).isSome)
    (hall : ∀ j ∈ preds k, (Function.update idom i (some w) j).isSome →
      Anc (Function.update idom i (some w)) j y) : Anc (Function.update idom i (some w)) k y := by
  have hold : ∀ j ∈ preds k, (idom j).isSome → Anc idom j y := fun j hj hknown =>
    hs.anc_of_anc h hknown (hall j hj (known_update hknown))
  by_cases hki : k = i
  · subst hki
    exact (hs.anc_self h).mpr (.inr ((hs.anc y).mpr hold))
  · rw [Function.update_of_ne hki] at hk
    have hky := h.join hkr hk hold
    by_cases hanc : Anc idom k i
    · obtain hiy | hyi := Nat.lt_or_ge i y
      · -- the path to `y` goes through `i`, and so does that of the first predecessor
        obtain ⟨p, ps, hps, -⟩ := hn.head hkr
        have hpi : Anc idom p i := hc hkr hk hps hanc (Ne.symm hki) (.inr (Nat.le_succ i))
        have hknown : (Function.update idom i (some w) p).isSome := by
          obtain rfl | hne := eq_or_ne p i
          · simp
          · obtain ⟨d, hd, -⟩ := anc_of_ne hpi hne
            exact known_update (by simp [hd])
        have hpi' := h.anc_update_of_le (Nat.le_refl i) hpi (w := w)
        have hpy := hall p (hps ▸ List.mem_cons_self ..) hknown
        have hiy' := (hs.rising h).anc_of_le hpi' hpy (Nat.le_of_lt hiy)
        exact (h.anc_update_of_le (Nat.le_refl i) hanc).trans hiy'
      · exact h.anc_update_of_le hyi hky
    · exact (anc_update_of_not hanc).mpr hky

theorem Sets.chained : Chained preds r i (Function.update idom i (some w)) := by
  intro k p ps y hkr hk hps hky hne hm
  by_cases hki : k = i
  · subst hki
    obtain ⟨p', ps', hps', hip, hknown⟩ := hs.first
    obtain ⟨rfl, rfl⟩ := List.cons.inj (hps.symm.trans hps')
    have hwy := ((hs.anc_self h).mp hky).resolve_left hne
    exact (anc_update_above h hip).mpr ((hs.anc y).mp hwy p (hps ▸ List.mem_cons_self ..) hknown)
  · rw [Function.update_of_ne hki] at hk
    have hky' := hs.anc_of_anc h hk hky
    obtain hik | hki' := Nat.lt_or_gt_of_ne (Ne.symm hki)
    · obtain ⟨p', ps', hps', hkp⟩ := hn.head hkr
      obtain ⟨rfl, rfl⟩ := List.cons.inj (hps.symm.trans hps')
      exact (anc_update_above h (Nat.lt_trans hik hkp)).mpr (hc hkr hk hps hky' hne (.inl hik))
    · have hyi : y ≤ i := hm.resolve_left (Nat.not_le_of_lt hki')
      exact h.anc_update_of_le hyi (hc hkr hk hps hky' hne (.inr (Nat.le_succ_of_le hyi)))

theorem Sets.inv : Inv preds r (Function.update idom i (some w)) where
  toRising := hs.rising h
  head {k d p ps} hkr hkd hps := by
    by_cases hki : k = i
    · subst hki
      obtain rfl : w = d := by simpa using hkd
      obtain ⟨p', ps', hps', -, hpw, -⟩ := hs.first_le h
      obtain ⟨rfl, rfl⟩ := List.cons.inj (hps.symm.trans hps')
      exact hpw
    · exact h.head hkr (by rwa [Function.update_of_ne hki] at hkd) hps
  under {k d} hkr hkd := by
    by_cases hki : k = i
    · subst hki
      obtain rfl : w = d := by simpa using hkd
      obtain ⟨p, ps, hps, -, -, -, hpw⟩ := hs.first_le h
      exact (h.under_of_anc hpw).step (hps ▸ List.mem_cons_self ..) (Nat.le_of_lt (hs.lt_new h))
    · exact h.under hkr (by rwa [Function.update_of_ne hki] at hkd)
  dom := hs.dom h
  join := hs.join h hn hc

end Update

/-! ## Sweeps -/

/-- The entries from `m` on are known. -/
def Known (r m : ℕ) (idom : Idoms) : Prop := ∀ {k}, m ≤ k → k ≤ r → (idom k).isSome

/-- How far the entries are from the root. -/
def slack (r : ℕ) (idom : Idoms) : ℕ := ∑ k ∈ Finset.range r, (r - (idom k).getD 0)

theorem slack_update (hir : i < r) (hwr : w ≤ r) (hlt : (idom i).getD 0 < w) :
    slack r (Function.update idom i (some w)) < slack r idom := by
  refine Finset.sum_lt_sum (fun k _ => ?_) ⟨i, Finset.mem_range.mpr hir, ?_⟩
  · by_cases hki : k = i
    · subst hki
      simp only [Function.update_self, Option.getD_some]
      omega
    · rw [Function.update_of_ne hki]
  · simp only [Function.update_self, Option.getD_some]
    omega

/-- No predecessor asks for another entry. -/
def Settled (preds : ℕ → List ℕ) (r : ℕ) (idom : Idoms) (i : ℕ) : Prop :=
  newIdom idom (2 * r + 2) (preds i) = idom i

/-- A sweep has come down to `m`. -/
structure Swept (preds : ℕ → List ℕ) (r m : ℕ) (idom : Idoms) : Prop where
  inv : Inv preds r idom
  chained : Chained preds r m idom
  known : Known r m idom

theorem sets_of_newIdom (hn : Numbered preds r) (h : Swept preds r (i + 1) idom) (hir : i < r) :
    ∃ w, newIdom idom (2 * r + 2) (preds i) = some w ∧ Sets preds r idom i w := by
  obtain ⟨p, ps, hps, hip⟩ := hn.head hir
  have hp : (idom p).isSome := h.known hip (hn.le hir (hps ▸ List.mem_cons_self ..))
  obtain ⟨w, hw, hknown, hanc⟩ := @newIdom_spec _ _ h.inv.toRising _ ps hp
  exact ⟨w, hps ▸ hw, hir, hknown, hps ▸ hanc, p, ps, hps, hip, hp⟩

theorem Sets.swept (hn : Numbered preds r) (h : Swept preds r (i + 1) idom)
    (hs : Sets preds r idom i w) : Swept preds r i (Function.update idom i (some w)) := by
  refine ⟨hs.inv h.inv hn h.chained, hs.chained h.inv hn h.chained, fun {k} hik hkr => ?_⟩
  obtain rfl | hlt := Nat.eq_or_lt_of_le hik
  · simp
  · exact known_update (h.known hlt hkr)

/-- **One node**: the sweep comes down to it, and settles it or moves its entry towards the root. -/
theorem sweepNode_spec (hn : Numbered preds r) (h : Swept preds r (i + 1) idom) (hir : i < r)
    (changed : Bool) : ∃ st, sweepNode preds (2 * r + 2) (idom, changed) i = some st ∧
      Swept preds r i st.1 ∧
      ((st = (idom, changed) ∧ Settled preds r idom i) ∨
        (st.2 = true ∧ slack r st.1 < slack r idom)) := by
  obtain ⟨w, hw, hs⟩ := sets_of_newIdom hn h hir
  have hswept := hs.swept hn h
  by_cases heq : idom i = some w
  · refine ⟨(idom, changed), by simp [sweepNode, hw, heq], ?_, .inl ⟨rfl, hw.trans heq.symm⟩⟩
    rwa [← heq, Function.update_eq_self] at hswept
  · refine ⟨(Function.update idom i (some w), true), by simp [sweepNode, hw, heq], hswept,
      .inr ⟨rfl, slack_update hir (h.inv.le_root hs.known) ?_⟩⟩
    have hiw := hs.lt_new h.inv
    cases hi : idom i with
    | none => exact Nat.lt_of_le_of_lt (Nat.zero_le i) hiw
    | some d =>
      have hdw := h.inv.le (hs.anc_old h.inv hi)
      exact Nat.lt_of_le_of_ne hdw fun hdw' => heq (hi.trans (congrArg some hdw'))

theorem sweep_from (hn : Numbered preds r) : ∀ (m : ℕ) (idom : Idoms) (changed : Bool), m ≤ r →
    Swept preds r m idom →
    ∃ st, (List.range m).reverse.foldlM (sweepNode preds (2 * r + 2)) (idom, changed) = some st ∧
      Swept preds r 0 st.1 ∧
      ((st = (idom, changed) ∧ ∀ i < m, Settled preds r idom i) ∨
        (st.2 = true ∧ slack r st.1 < slack r idom))
  | 0, idom, changed, _, h => ⟨(idom, changed), rfl, h, .inl ⟨rfl, by simp⟩⟩
  | m + 1, idom, changed, hmr, h => by
    obtain ⟨⟨idom₁, c₁⟩, hst₁, h₁, hcase₁⟩ := sweepNode_spec hn h hmr changed
    obtain ⟨st₂, hst₂, h₂, hcase₂⟩ := sweep_from hn m idom₁ c₁ (Nat.le_of_succ_le hmr) h₁
    refine ⟨st₂, by rw [List.range_succ, List.reverse_append]; simpa [hst₁] using hst₂, h₂, ?_⟩
    obtain ⟨heq₁, hset⟩ | ⟨hc₁, hlt₁⟩ := hcase₁
    · obtain ⟨rfl, rfl⟩ := Prod.mk.inj heq₁
      refine hcase₂.imp_left fun ⟨heq₂, hall⟩ => ⟨heq₂, fun i hi => ?_⟩
      obtain rfl | hlt := Nat.eq_or_lt_of_le (Nat.le_of_lt_succ hi)
      · exact hset
      · exact hall i hlt
    · obtain ⟨rfl, -⟩ | ⟨hc₂, hlt₂⟩ := hcase₂
      · exact .inr ⟨hc₁, hlt₁⟩
      · exact .inr ⟨hc₂, Nat.lt_trans hlt₂ hlt₁⟩

/-- Each sweep starts afresh. -/
theorem Swept.restart (h : Inv preds r idom) (hc : Chained preds r 0 idom) :
    Swept preds r r idom := by
  refine ⟨h, fun hkr hk hps hky hne _ => hc hkr hk hps hky hne (.inl (Nat.zero_le _)), ?_⟩
  intro k hrk hkr
  obtain rfl := Nat.le_antisymm hkr hrk
  simp [h.root]

/-- **The sweeps end**, with every entry known and settled. -/
theorem iterate_spec (hn : Numbered preds r) : ∀ (n : ℕ) (idom : Idoms), slack r idom < n →
    Swept preds r r idom → ∃ idom', iterate preds r n idom = some idom' ∧ Swept preds r 0 idom' ∧
      ∀ i < r, Settled preds r idom' i
  | 0, _, hlt, _ => absurd hlt (Nat.not_lt_zero _)
  | n + 1, idom, hlt, h => by
    obtain ⟨⟨idom₁, c₁⟩, hst, h₁, hcase⟩ := sweep_from hn r idom false (Nat.le_refl r) h
    have hsweep : sweep preds r idom = some (idom₁, c₁) := hst
    obtain ⟨heq, hset⟩ | ⟨hc₁, hlt₁⟩ := hcase
    · obtain ⟨rfl, rfl⟩ := Prod.mk.inj heq
      exact ⟨idom₁, by simp [iterate, hsweep], h₁, hset⟩
    · obtain ⟨idom', hiter, h'⟩ := iterate_spec hn n idom₁ (by simp only at hlt₁; omega)
        (.restart h₁.inv h₁.chained)
      obtain rfl : c₁ = true := hc₁
      exact ⟨idom', by simp [iterate, hsweep, hiter], h'⟩

/-- The array before the first sweep. -/
theorem Swept.init : Swept preds r r (Function.update (fun _ => none) r (some r)) := by
  have hknown : ∀ {k}, (Function.update (fun _ => none) r (some r) k : Option ℕ).isSome → k = r := by
    intro k hk
    by_contra hne
    simp [hne] at hk
  have hroot : ∀ {k d}, (Function.update (fun _ => none) r (some r) k : Option ℕ) = some d → k = r :=
    fun hk => hknown (by simp [hk])
  refine ⟨⟨⟨by simp, fun hk hne => absurd (hroot hk) hne, fun {i d} hk => ?_⟩, ?_, ?_, ?_, ?_⟩, ?_, ?_⟩
  · obtain rfl := hroot hk
    obtain rfl : i = d := by simpa using hk
    simp
  · exact fun hir hi _ => absurd (hroot hi) (Nat.ne_of_lt hir)
  · exact fun hir hi => absurd (hroot hi) (Nat.ne_of_lt hir)
  · intro k d hk hd
    obtain rfl := hknown hk
    obtain rfl : k = d := by
      by_contra hne
      exact hd (.root hne)
    exact .refl
  · exact fun hir hi _ => absurd (hknown hi) (Nat.ne_of_lt hir)
  · exact fun hir hi _ _ _ _ => absurd (hknown hi) (Nat.ne_of_lt hir)
  · intro k hrk hkr
    obtain rfl := Nat.le_antisymm hkr hrk
    simp

theorem slack_lt : slack r idom < r * r + 2 := by
  have h : slack r idom ≤ ∑ _k ∈ Finset.range r, r := Finset.sum_le_sum fun k _ => Nat.sub_le _ _
  rw [Finset.sum_const_nat fun _ _ => rfl, Finset.card_range] at h
  omega

/-! ## What the entries are -/

/-- **Where all is settled, ancestors dominate.** -/
theorem dominates_of_settled (hn : Numbered preds r) (h : Swept preds r 0 idom)
    (hset : ∀ i < r, Settled preds r idom i) (hkr : k ≤ r) (hky : Anc idom k y) :
    ¬ Avoids preds r y k := by
  intro hav
  induction hav with
  | root hne => exact hne (h.inv.eq_root hky).symm
  | @step j k _ hjk hne ih =>
    obtain hlt | rfl := Nat.lt_or_eq_of_le hkr
    · obtain ⟨p, ps, hps, hkp⟩ := hn.head hlt
      have hp : (idom p).isSome := h.known (Nat.zero_le _) (hn.le hlt (hps ▸ List.mem_cons_self ..))
      obtain ⟨w, hw, -, hanc⟩ := @newIdom_spec _ _ h.inv.toRising _ ps hp
      have hkw : idom k = some w := (hset k hlt).symm.trans (hps ▸ hw)
      obtain ⟨d, hd, hdy⟩ := anc_of_ne hky hne
      obtain rfl := Option.some.inj (hkw.symm.trans hd)
      have hjr := hn.le hlt hjk
      exact ih hjr ((hanc y).mp hdy j (hps ▸ hjk) (h.known (Nat.zero_le _) hjr))
    · exact hne (h.inv.eq_root hky).symm

/-- **The entries are the immediate dominators.** -/
theorem iterate_idoms (hn : Numbered preds r) :
    ∃ idom', iterate preds r (r * r + 2) (Function.update (fun _ => none) r (some r)) = some idom' ∧
      ∀ k < r, ∃ d, idom' k = some d ∧ d ≤ r ∧ d ≠ k ∧ ¬ Avoids preds r d k ∧
        ∀ y ≠ k, ¬ Avoids preds r y k → ¬ Avoids preds r y d := by
  obtain ⟨idom', hiter, h, hset⟩ := iterate_spec hn (r * r + 2) _ slack_lt Swept.init
  refine ⟨idom', hiter, fun k hkr => ?_⟩
  obtain ⟨d, hd⟩ := Option.isSome_iff_exists.mp (h.known (Nat.zero_le k) (Nat.le_of_lt hkr))
  have hrise := h.inv.rise hd (Nat.ne_of_lt hkr)
  refine ⟨d, hd, hrise.2, Nat.ne_of_gt hrise.1, ?_, fun y hyk hy => ?_⟩
  · exact dominates_of_settled hn h hset (Nat.le_of_lt hkr) (.single hd)
  · have hky := h.inv.dom (h.known (Nat.zero_le k) (Nat.le_of_lt hkr)) hy
    obtain ⟨d', hd', hdy⟩ := anc_of_ne hky hyk.symm
    obtain rfl := Option.some.inj (hd.symm.trans hd')
    exact dominates_of_settled hn h hset hrise.2 hdy

end Flow

/-! ## The graph -/

section Graph

variable {ν : Type*} [DecidableEq ν] {g : DirectedGraph ν} {nodes : List ν} {root v w x d : ν}
  {i j t : ℕ}

theorem order_spec (hg : g.Closed) (hroot : root ∈ g.nodes) :
    ∃ l, order g root = l ++ [root] ∧ (order g root).Nodup ∧
      Dfs.Ranked g.successors [root] (order g root) ∧ ∀ x, x ∈ order g root ↔ g.Reaches root x := by
  obtain ⟨l, hl, hnodup, hranked, hmem⟩ :=
    @Dfs.search_postorder _ _ g.successors g.nodes.length root
  have horder : order g root = l ++ [root] := hl
  rw [horder]
  refine ⟨l, rfl, hnodup, hranked, fun x => ?_⟩
  rw [← hmem]
  exact Dfs.mem_search_iff hg (Nat.lt_succ_self _) hroot

theorem mem_preds : j ∈ preds g nodes t ↔
    ∃ v w, nodes[j]? = some v ∧ w ∈ g.successors v ∧ nodes.idxOf w = t := by
  simp only [preds, List.mem_reverse, List.mem_flatMap, List.mem_map, List.mem_filter,
    decide_eq_true_eq, Prod.exists, List.mem_zipIdx_iff_getElem?]
  constructor
  · rintro ⟨v, i, hv, w, ⟨hw, ht⟩, rfl⟩
    exact ⟨v, w, hv, hw, ht⟩
  · rintro ⟨v, w, hv, hw, ht⟩
    exact ⟨v, j, hv, w, ⟨hw, ht⟩, rfl⟩

/-- Predecessors come highest first. -/
theorem preds_sorted : (preds g nodes t).Pairwise (· ≥ ·) := by
  rw [preds, List.pairwise_reverse, List.pairwise_flatMap]
  constructor
  · intro vi _
    rw [List.pairwise_map]
    exact List.pairwise_of_forall fun _ _ => Nat.le_refl _
  · have h : (nodes.zipIdx.map Prod.snd).Pairwise (· < ·) := by
      rw [List.zipIdx_map_snd]
      exact List.pairwise_lt_range'
    refine (List.pairwise_map.mp h).imp fun {a b} hab j hj j' hj' => ?_
    obtain ⟨_, -, rfl⟩ := List.mem_map.mp hj
    obtain ⟨_, -, rfl⟩ := List.mem_map.mp hj'
    exact Nat.le_of_lt hab

theorem numbered {l : List ν} (hl : nodes = l ++ [root]) (hnodup : nodes.Nodup)
    (hranked : Dfs.Ranked g.successors [root] nodes) :
    Numbered (preds g nodes) (nodes.length - 1) := by
  refine ⟨fun {i} hi => ?_, fun {i j} _ hj => ?_⟩
  · have hlen : i < nodes.length := by omega
    have hne : nodes[i] ≠ root := by
      intro heq
      have hlast : nodes[nodes.length - 1] = root := by simp [hl]
      have := hnodup.getElem_inj_iff.mp (heq.trans hlast.symm)
      omega
    obtain ⟨l₁, l₂, u, hsplit, hu, hxu⟩ :=
      hranked.exists_later (List.getElem_mem hlen) (by simpa using hne)
    have hi' : l₁.length = i := by
      have hget : nodes[l₁.length]? = some nodes[i] := by
        conv_lhs => rw [hsplit]
        simp
      obtain ⟨hlt, hget⟩ := List.getElem?_eq_some_iff.mp hget
      exact hnodup.getElem_inj_iff.mp hget
    obtain ⟨m, hm, rfl⟩ := List.getElem_of_mem hu
    have hj : l₁.length + 1 + m ∈ preds g nodes i := by
      refine mem_preds.mpr ⟨l₂[m], nodes[i], ?_, hxu, hnodup.idxOf_getElem i hlen⟩
      conv_lhs => rw [hsplit]
      rw [List.getElem?_append_right (by omega), show l₁.length + 1 + m - l₁.length = m + 1 by omega]
      simp
    have hsorted := @preds_sorted _ _ g nodes i
    cases hps : preds g nodes i with
    | nil => simp [hps] at hj
    | cons p ps =>
      refine ⟨p, ps, rfl, ?_⟩
      rw [hps] at hj hsorted
      obtain rfl | hj := List.mem_cons.mp hj
      · omega
      · have := (List.pairwise_cons.mp hsorted).1 _ hj
        omega
  · obtain ⟨v, w, hv, -⟩ := mem_preds.mp hj
    have := (List.getElem?_eq_some_iff.mp hv).1
    omega

/-- **Dominance by numbers is dominance in the graph.** -/
theorem avoids_iff {l : List ν} (hl : nodes = l ++ [root]) (hnodup : nodes.Nodup)
    (hreach : ∀ x, g.Reaches root x → x ∈ nodes) (hx : x ∈ nodes) :
    Avoids (preds g nodes) (nodes.length - 1) (nodes.idxOf d) (nodes.idxOf x) ↔
      Dominance.Avoids (Dfs.Edge g.successors) root (· = d) x := by
  have hroot : nodes.idxOf root = nodes.length - 1 := by
    rw [hl] at hnodup ⊢
    rw [List.idxOf_append_of_notMem fun h => (List.nodup_append'.mp hnodup).2.2 h (by simp)]
    simp
  have hnum : ∀ {k x}, nodes[k]? = some x → nodes.idxOf x = k := by
    intro k x hk
    obtain ⟨hlt, rfl⟩ := List.getElem?_eq_some_iff.mp hk
    exact hnodup.idxOf_getElem k hlt
  have hget : ∀ {x}, x ∈ nodes → nodes[nodes.idxOf x]? = some x := fun hx =>
    List.getElem?_eq_some_iff.mpr ⟨List.idxOf_lt_length_of_mem hx, List.getElem_idxOf _⟩
  have hrootmem : root ∈ nodes := by simp [hl]
  constructor
  · suffices key : ∀ {k}, Avoids (preds g nodes) (nodes.length - 1) (nodes.idxOf d) k →
        ∀ x, nodes[k]? = some x → Dominance.Avoids (Dfs.Edge g.successors) root (· = d) x from
      fun h => key h x (hget hx)
    intro k h
    induction h with
    | root hne =>
      intro x hx
      obtain rfl : x = root := by
        rw [← hroot, hget hrootmem] at hx
        exact (Option.some.inj hx).symm
      exact .root fun hxd => hne (by rw [← hroot, hxd])
    | @step j k _ hjk hne ih =>
      intro x hx
      obtain ⟨v, w, hv, hw, hwk⟩ := mem_preds.mp hjk
      obtain rfl : w = x := by
        have hlt : nodes.idxOf w < nodes.length := hwk ▸ (List.getElem?_eq_some_iff.mp hx).1
        rw [← hwk, hget (List.idxOf_lt_length_iff.mp hlt)] at hx
        exact Option.some.inj hx
      exact (ih v hv).step hw fun hwd => hne (by rw [← hwk, hwd])
  · intro h
    induction h with
    | root hne =>
      rw [hroot]
      refine .root fun heq => hne ?_
      exact (List.idxOf_inj hrootmem).mp (hroot.trans heq)
    | @step u v hu huv hne ih =>
      have hmem := hreach u hu.reaches
      refine (ih hmem).step (mem_preds.mpr ⟨u, v, hget hmem, huv, rfl⟩) fun heq => hne ?_
      exact (List.idxOf_inj hx).mp heq

end Graph

end Dominators

open Dominators in
/-- **`dominators` computes immediate dominators**: of every node that the root reaches, and it says of
the other nodes that they are unreachable. -/
theorem dominators_spec {ν : Type*} [DecidableEq ν] {g : DirectedGraph ν} {root : ν} (hg : g.Closed)
    (hroot : root ∈ g.nodes) :
    ∃ idom, dominators g root = some idom ∧ idom root = .root ∧
      (∀ n ≠ root, ¬ g.Reaches root n → idom n = .unreachable) ∧
      ∀ n ≠ root, g.Reaches root n → ∃ d, idom n = .idom d ∧ g.Reaches root d ∧
        Dominance.Immediate (Dfs.Edge g.successors) root d n := by
  obtain ⟨l, hl, hnodup, hranked, hmem⟩ := order_spec hg hroot
  have hn := numbered hl hnodup hranked
  obtain ⟨idom, hiter, hspec⟩ := iterate_idoms hn
  refine ⟨_, by rw [dominators, hiter]; rfl, by simp, fun n hne hreach => ?_, fun n hne hreach => ?_⟩
  · simp [hne, hmem, hreach]
  · have hmem_n := (hmem n).mpr hreach
    have hlt := List.idxOf_lt_length_of_mem hmem_n
    have hnr : (order g root).idxOf n < (order g root).length - 1 := by
      refine Nat.lt_of_le_of_ne (by omega) fun heq => hne ?_
      have hlast : (order g root)[(order g root).length - 1] = root := by simp [hl]
      rw [← hlast]
      simp only [← heq, List.getElem_idxOf]
    obtain ⟨d, hd, hdr, hdne, hdom, hnear⟩ := hspec _ hnr
    have hdlt : d < (order g root).length := by omega
    have hdnum : (order g root).idxOf (order g root)[d] = d := hnodup.idxOf_getElem d hdlt
    have hdmem : (order g root)[d] ∈ order g root := List.getElem_mem hdlt
    have hiff := fun {a b : ν} (hb : b ∈ order g root) =>
      avoids_iff (d := a) hl hnodup (fun x => (hmem x).mpr) hb
    refine ⟨(order g root)[d], by simp [hne, hmem_n, hd, hdlt], (hmem _).mp hdmem, ?_, ?_, ?_⟩
    · exact fun heq => hdne (by rw [← heq, hdnum])
    · intro hav
      refine hdom ?_
      have := (hiff hmem_n).mpr hav
      rwa [hdnum] at this
    · intro a han ha hav
      have hamem : a ∈ order g root := by
        by_contra hnot
        exact ha (Dominance.avoids_of_not_reaches (by rintro _ rfl h; exact hnot ((hmem _).mpr h)) hreach)
      have := (hiff hdmem).mpr hav
      rw [hdnum] at this
      refine hnear _ (fun heq => han ((List.idxOf_inj hamem).mp heq)) (fun h => ha ?_) this
      exact (hiff hmem_n).mp h

end MLton.DirectedGraph
