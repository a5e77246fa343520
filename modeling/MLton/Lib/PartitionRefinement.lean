import Mathlib.Algebra.GroupWithZero.Nat
import Mathlib.Data.Finset.Prod

/-!
# Lib/PartitionRefinement — splitting classes until every refinement holds

Elements start in given classes.  A refinement is a list of pairs, coarse and fine, and it holds when
fine elements of one class have their coarse elements in one class.  The fixed point splits classes
until every refinement holds, and it splits no more than it must: it is the coarsest such partition
(`fixedPoint_spec`).
-/

namespace MLton.PartitionRefinement

variable {ε κ : Type*}

/-- The class of each element: one that elements start with, or one made since. -/
structure Classes (ε κ : Type*) where
  classOf : ε → κ ⊕ ℕ
  next : ℕ

/-- A list of pairs, coarse and fine. -/
abbrev Refinement (ε : Type*) := List (ε × ε)

/-- The classes at the start. -/
def Classes.init (k : ε → κ) : Classes ε κ := ⟨fun e => .inl (k e), 0⟩

/-- Put elements in a class of their own. -/
def Classes.setNew [DecidableEq ε] (c : Classes ε κ) (es : List ε) : Classes ε κ :=
  { classOf := fun e => if e ∈ es then .inr c.next else c.classOf e, next := c.next + 1 }

/-- `forceDistinct`. -/
def forceDistinct [DecidableEq ε] (c : Classes ε κ) (es : List ε) : Classes ε κ :=
  es.foldl (fun c e => c.setNew [e]) c

/-- `group`: the pairs with the same class, for every class.  Which class comes first makes no
difference to the fixed point. -/
def group {γ : Type*} [DecidableEq γ] (k : ε × ε → γ) (v : Refinement ε) : List (Refinement ε) :=
  (v.map k).dedup.map fun q => v.filter fun cf => k cf = q

section

variable [DecidableEq ε] [DecidableEq κ]

/-- Split one group of pairs by their coarse classes, counting the classes. -/
def splitGroup (st : Classes ε κ × ℕ × Bool) (g : Refinement ε) : Classes ε κ × ℕ × Bool :=
  match group (fun cf => st.1.classOf cf.1) g with
  | [] => st
  | [_] => (st.1, st.2.1 + 1, st.2.2)
  | classes =>
    (classes.foldl (fun c s => c.setNew (s.map Prod.snd)) st.1, st.2.1 + classes.length, true)

/-- `refine`, with the flags `change` and `keep`. -/
def refine (v : Refinement ε) (c : Classes ε κ) : Classes ε κ × Bool × Bool :=
  let fineGroups := group (fun cf => c.classOf cf.2) v
  if v.length = fineGroups.length then (c, false, false)
  else
    let (c, numClasses, change) := fineGroups.foldl splitGroup (c, 0, false)
    (c, change, v.length ≠ numClasses)

/-- One refinement of a pass: the refinements kept, whether something changed, and the classes. -/
def refineNext (st : List (Refinement ε) × Bool × Classes ε κ) (r : Refinement ε) :
    List (Refinement ε) × Bool × Classes ε κ :=
  let (c, change, keep) := refine r st.2.2
  (if keep then r :: st.1 else st.1, st.2.1 || change, c)

/-- `fixedPoint`.  The number bounds the passes. -/
def fixedPoint : ℕ → List (Refinement ε) → Classes ε κ → Classes ε κ
  | 0, _, c => c
  | n + 1, rs, c =>
    let (rs, change, c) := rs.foldl refineNext ([], false, c)
    if change then fixedPoint n rs c else c

end

/-! ## Making classes -/

section Making

variable {c c' : Classes ε κ} {e e' : ε} {es : List ε} {g : Refinement ε}

/-- The next class has no element yet. -/
def Fresh (c : Classes ε κ) : Prop := ∀ e n, c.classOf e = .inr n → n < c.next

/-- No class was joined with another. -/
def Finer (c c' : Classes ε κ) : Prop := ∀ e e', c'.classOf e = c'.classOf e' → c.classOf e = c.classOf e'

theorem Finer.refl (c : Classes ε κ) : Finer c c := fun _ _ => id

theorem Finer.trans {c'' : Classes ε κ} (h : Finer c c') (h' : Finer c' c'') : Finer c c'' :=
  fun e e' he => h e e' (h' e e' he)

theorem fresh_init (k : ε → κ) : Fresh (Classes.init k) := by
  intro e n h
  cases h

variable [DecidableEq ε]

theorem Fresh.setNew (h : Fresh c) : Fresh (c.setNew es) := by
  intro e n hn
  by_cases he : e ∈ es
  · simp only [Classes.setNew, he, if_true, Sum.inr.injEq] at hn
    exact hn ▸ Nat.lt_succ_self _
  · simp only [Classes.setNew, he, if_false] at hn
    exact Nat.lt_succ_of_lt (h e n hn)

/-- Several new classes. -/
abbrev setNews (c : Classes ε κ) (ss : List (List ε)) : Classes ε κ := ss.foldl Classes.setNew c

theorem classOf_setNews_of_notMem : ∀ {ss : List (List ε)} {c : Classes ε κ}, (∀ s ∈ ss, e ∉ s) →
    (setNews c ss).classOf e = c.classOf e
  | [], _, _ => rfl
  | s :: ss, c, h => by
    rw [setNews, List.foldl_cons, ← setNews,
      classOf_setNews_of_notMem fun s' hs' => h s' (List.mem_cons_of_mem _ hs')]
    simp [Classes.setNew, h s (List.mem_cons_self ..)]

theorem Fresh.setNews : ∀ {ss : List (List ε)} {c : Classes ε κ}, Fresh c → Fresh (setNews c ss)
  | [], _, h => h
  | s :: ss, c, h => (Fresh.setNews h.setNew : Fresh (PartitionRefinement.setNews (c.setNew s) ss))

theorem classOf_setNews_of_mem : ∀ {ss : List (List ε)} {c : Classes ε κ} {s : List ε}, s ∈ ss →
    e ∈ s → ∃ n, c.next ≤ n ∧ (setNews c ss).classOf e = .inr n
  | [], _, _, hs, _ => by cases hs
  | s :: ss, c, s', hs', he => by
    rw [setNews, List.foldl_cons, ← setNews]
    by_cases hmem : ∃ s₁ ∈ ss, e ∈ s₁
    · obtain ⟨s₁, hs₁, he₁⟩ := hmem
      obtain ⟨n, hn, hclass⟩ := classOf_setNews_of_mem (c := c.setNew s) hs₁ he₁
      exact ⟨n, Nat.le_of_succ_le hn, hclass⟩
    · have hnot : ∀ s₁ ∈ ss, e ∉ s₁ := fun s₁ hs₁ he₁ => hmem ⟨s₁, hs₁, he₁⟩
      obtain rfl | hs' := List.mem_cons.mp hs'
      · exact ⟨c.next, Nat.le_refl _, by rw [classOf_setNews_of_notMem hnot]; simp [Classes.setNew, he]⟩
      · exact absurd he (hnot s' hs')

/-- **Several new classes**: two of their elements are together when some one class was made for
both. -/
theorem classOf_setNews_eq_iff : ∀ {ss : List (List ε)} {c : Classes ε κ}, ss.Pairwise List.Disjoint →
    ∀ {s s' : List ε}, s ∈ ss → s' ∈ ss → e ∈ s → e' ∈ s' →
      ((setNews c ss).classOf e = (setNews c ss).classOf e' ↔ s = s')
  | [], _, _, _, _, hs, _, _, _ => by cases hs
  | s₀ :: ss, c, hdisj, s, s', hs, hs', he, he' => by
    obtain ⟨hdisj₀, hdisj⟩ := List.pairwise_cons.mp hdisj
    have hfirst : ∀ {x}, x ∈ s₀ → (setNews c (s₀ :: ss)).classOf x = .inr c.next := by
      intro x hx
      rw [setNews, List.foldl_cons, ← setNews,
        classOf_setNews_of_notMem fun s₁ hs₁ hx' => hdisj₀ s₁ hs₁ hx hx']
      simp [Classes.setNew, hx]
    have hrest : ∀ {x s₁}, s₁ ∈ ss → x ∈ s₁ → (setNews c (s₀ :: ss)).classOf x ≠ .inr c.next := by
      intro x s₁ hs₁ hx heq
      obtain ⟨n, hn, hclass⟩ := classOf_setNews_of_mem (c := c.setNew s₀) hs₁ hx
      obtain rfl : n = c.next := Sum.inr.inj (hclass.symm.trans heq)
      exact absurd hn (Nat.not_succ_le_self _)
    obtain rfl | hmem := List.mem_cons.mp hs <;> obtain rfl | hmem' := List.mem_cons.mp hs'
    · exact ⟨fun _ => rfl, fun _ => (hfirst he).trans (hfirst he').symm⟩
    · refine ⟨fun h => absurd (h.symm.trans (hfirst he)) (hrest hmem' he'), fun h => ?_⟩
      exact absurd he' (hdisj₀ _ hmem' (h ▸ he'))
    · refine ⟨fun h => absurd (h.trans (hfirst he')) (hrest hmem he), fun h => ?_⟩
      exact absurd he (hdisj₀ _ hmem (h ▸ he))
    · exact classOf_setNews_eq_iff (c := c.setNew s₀) hdisj hmem hmem' he he'

/-- New classes made for elements of one class join no classes. -/
theorem finer_setNews (hfresh : Fresh c) {ss : List (List ε)}
    (hone : ∀ s ∈ ss, ∀ s' ∈ ss, ∀ x ∈ s, ∀ y ∈ s', c.classOf x = c.classOf y) :
    Finer c (setNews c ss) := by
  have hnew : ∀ {x y}, (∃ s ∈ ss, x ∈ s) → (∀ s ∈ ss, y ∉ s) →
      (setNews c ss).classOf x ≠ (setNews c ss).classOf y := by
    rintro x y ⟨s, hs, hx⟩ hy h
    obtain ⟨n, hn, hclass⟩ := classOf_setNews_of_mem (c := c) hs hx
    rw [hclass, classOf_setNews_of_notMem hy] at h
    exact absurd (hfresh y n h.symm) (Nat.not_lt.mpr hn)
  intro x y h
  by_cases hx : ∃ s ∈ ss, x ∈ s <;> by_cases hy : ∃ s ∈ ss, y ∈ s
  · obtain ⟨s, hs, hx⟩ := hx
    obtain ⟨s', hs', hy⟩ := hy
    exact hone s hs s' hs' x hx y hy
  · exact absurd h (hnew hx fun s hs hys => hy ⟨s, hs, hys⟩)
  · exact absurd h.symm (hnew hy fun s hs hxs => hx ⟨s, hs, hxs⟩)
  · rwa [classOf_setNews_of_notMem fun s hs hxs => hx ⟨s, hs, hxs⟩,
      classOf_setNews_of_notMem fun s hs hys => hy ⟨s, hs, hys⟩] at h

theorem forceDistinct_eq (c : Classes ε κ) (es : List ε) :
    forceDistinct c es = setNews c (es.map fun e => [e]) := by
  simp [forceDistinct, setNews, List.foldl_map]

theorem Fresh.forceDistinct (h : Fresh c) : Fresh (forceDistinct c es) :=
  forceDistinct_eq c es ▸ h.setNews

/-- An element that is forced to be distinct is on its own. -/
theorem eq_of_forceDistinct : ∀ {es : List ε} {c : Classes ε κ}, Fresh c →
    (forceDistinct c es).classOf e = (forceDistinct c es).classOf e' →
      e = e' ∨ (c.classOf e = c.classOf e' ∧ e ∉ es ∧ e' ∉ es)
  | [], _, _, h => .inr ⟨h, List.not_mem_nil, List.not_mem_nil⟩
  | x :: es, c, hfresh, h => by
    obtain heq | ⟨h, he, he'⟩ := eq_of_forceDistinct (c := c.setNew [x]) hfresh.setNew h
    · exact .inl heq
    have hold : ∀ y, c.classOf y ≠ .inr c.next := fun y hy => Nat.lt_irrefl _ (hfresh y _ hy)
    by_cases hx : e = x <;> by_cases hx' : e' = x
    · exact .inl (hx.trans hx'.symm)
    · exact absurd (by simpa [Classes.setNew, hx, hx'] using h.symm) (hold e')
    · exact absurd (by simpa [Classes.setNew, hx, hx'] using h) (hold e)
    · exact .inr ⟨by simpa [Classes.setNew, hx, hx'] using h, by simp [hx, he], by simp [hx', he']⟩

end Making

/-! ## Groups -/

section Groups

variable {γ : Type*} [DecidableEq γ] {k : ε × ε → γ} {v g : Refinement ε} {cf cf' : ε × ε}

theorem mem_group : g ∈ group k v ↔ ∃ cf ∈ v, g = v.filter fun cf' => k cf' = k cf := by
  simp only [group, List.mem_map, List.mem_dedup]
  constructor
  · rintro ⟨_, ⟨cf, hcf, rfl⟩, rfl⟩
    exact ⟨cf, hcf, rfl⟩
  · rintro ⟨cf, hcf, rfl⟩
    exact ⟨k cf, ⟨cf, hcf, rfl⟩, rfl⟩

/-- Every pair is in a group, with all the pairs of its class. -/
theorem exists_group (h : cf ∈ v) : ∃ g ∈ group k v, ∀ cf', cf' ∈ g ↔ cf' ∈ v ∧ k cf' = k cf :=
  ⟨_, mem_group.mpr ⟨cf, h, rfl⟩, fun cf' => by simp⟩

theorem group_sublist (hg : g ∈ group k v) : g.Sublist v := by
  obtain ⟨cf, -, rfl⟩ := mem_group.mp hg
  exact List.filter_sublist

theorem eq_of_group (hg : g ∈ group k v) (h : cf ∈ g) (h' : cf' ∈ g) : k cf = k cf' := by
  obtain ⟨cf₀, -, rfl⟩ := mem_group.mp hg
  simp only [List.mem_filter, decide_eq_true_eq] at h h'
  exact h.2.trans h'.2.symm

theorem mem_group_of_eq (hg : g ∈ group k v) (h : cf ∈ g) (hv : cf' ∈ v) (hk : k cf' = k cf) :
    cf' ∈ g := by
  obtain ⟨cf₀, -, rfl⟩ := mem_group.mp hg
  simp only [List.mem_filter, decide_eq_true_eq] at h ⊢
  exact ⟨hv, hk.trans h.2⟩

theorem group_unique (hg : g ∈ group k v) {g' : Refinement ε} (hg' : g' ∈ group k v) (h : cf ∈ g)
    (h' : cf' ∈ g') (hk : k cf = k cf') : g = g' := by
  obtain ⟨cf₀, -, rfl⟩ := mem_group.mp hg
  obtain ⟨cf₁, -, rfl⟩ := mem_group.mp hg'
  simp only [List.mem_filter, decide_eq_true_eq] at h h'
  rw [← h.2, ← h'.2, hk]

theorem group_pairwise (k : ε × ε → γ) (v : Refinement ε) :
    (group k v).Pairwise fun g g' => ∀ cf ∈ g, ∀ cf' ∈ g', k cf ≠ k cf' := by
  refine List.Pairwise.map _ (fun q q' hne cf hcf cf' hcf' h => hne ?_) (List.nodup_dedup (v.map k))
  simp only [List.mem_filter, decide_eq_true_eq] at hcf hcf'
  exact hcf.2.symm.trans (h.trans hcf'.2)

/-- Groups of pairs that have fine elements of their own share none. -/
theorem group_fines_disjoint (hfine : (v.map Prod.snd).Nodup) :
    ((group k v).map fun g => g.map Prod.snd).Pairwise List.Disjoint := by
  refine List.pairwise_map.mpr ((group_pairwise k v).imp_of_mem fun {g g'} hg hg' h x hx hx' => ?_)
  obtain ⟨cf, hcf, rfl⟩ := List.mem_map.mp hx
  obtain ⟨cf', hcf', heq⟩ := List.mem_map.mp hx'
  obtain rfl := List.inj_on_of_nodup_map hfine ((group_sublist hg').subset hcf')
    ((group_sublist hg).subset hcf) heq
  exact h cf' hcf cf' hcf' rfl

/-- The groups have all the pairs. -/
theorem sum_length_group (k : ε × ε → γ) (v : Refinement ε) :
    ((group k v).map List.length).sum = v.length := by
  have hcount : (group k v).map List.length = (v.map k).dedup.map fun q => (v.map k).count q := by
    simp only [group, List.map_map]
    refine List.map_congr_left fun q _ => ?_
    rw [List.count, List.countP_map, List.countP_eq_length_filter]
    rfl
  rw [hcount, List.sum_map_count_dedup_eq_length, List.length_map]

theorem length_group_le (k : ε × ε → γ) (v : Refinement ε) : (group k v).length ≤ v.length := by
  simpa [group] using (List.dedup_sublist (v.map k)).length_le

/-- With as many groups as pairs, no two pairs have the same class. -/
theorem eq_of_length_group (h : v.length = (group k v).length) (hcf : cf ∈ v) (hcf' : cf' ∈ v)
    (hk : k cf = k cf') : cf = cf' := by
  have hlen : (v.map k).dedup.length = (v.map k).length := by simpa [group] using h.symm
  have hnodup : (v.map k).Nodup := by
    rw [← (List.dedup_sublist (v.map k)).eq_of_length hlen]
    exact List.nodup_dedup _
  exact List.inj_on_of_nodup_map hnodup hcf hcf' hk

end Groups

/-! ## Splitting one group -/

section Splitting

variable [DecidableEq ε] [DecidableEq κ] {c c' : Classes ε κ} {e e' : ε} {g v : Refinement ε}
  {cf cf' : ε × ε} {n : ℕ} {change : Bool}

/-- The fine elements are in one class. -/
def Uniform (c : Classes ε κ) (g : Refinement ε) : Prop :=
  ∀ cf ∈ g, ∀ cf' ∈ g, c.classOf cf.2 = c.classOf cf'.2

/-- Fine elements of one class have their coarse elements in one class. -/
def Holds (c : Classes ε κ) (g : Refinement ε) : Prop :=
  ∀ cf ∈ g, ∀ cf' ∈ g, c.classOf cf.2 = c.classOf cf'.2 → c.classOf cf.1 = c.classOf cf'.1

/-- No two fine elements are in one class. -/
def Apart (c : Classes ε κ) (g : Refinement ε) : Prop :=
  ∀ cf ∈ g, ∀ cf' ∈ g, c.classOf cf.2 = c.classOf cf'.2 → cf = cf'

/-- What splitting a group of one class does. -/
structure Splits (g : Refinement ε) (c c' : Classes ε κ) : Prop where
  fresh : Fresh c → Fresh c'
  finer : Fresh c → Finer c c'
  others : ∀ e, (∀ cf ∈ g, cf.2 ≠ e) → c'.classOf e = c.classOf e
  inner : ∀ cf ∈ g, ∀ cf' ∈ g,
    (c'.classOf cf.2 = c'.classOf cf'.2 ↔ c.classOf cf.1 = c.classOf cf'.1)

theorem eq_of_length_le_one {α : Type*} {a b : α} : ∀ {l : List α}, l.length ≤ 1 → a ∈ l → b ∈ l → a = b
  | [_], _, ha, hb => (List.mem_singleton.mp ha).trans (List.mem_singleton.mp hb).symm

theorem splitGroup_eq (st : Classes ε κ × ℕ × Bool) (g : Refinement ε) :
    splitGroup st g =
      let classes := group (fun cf => st.1.classOf cf.1) g
      if classes.length ≤ 1 then (st.1, st.2.1 + classes.length, st.2.2)
      else (setNews st.1 (classes.map fun s => s.map Prod.snd), st.2.1 + classes.length, true) := by
  unfold splitGroup
  rcases group (fun cf => st.1.classOf cf.1) g with _ | ⟨s, _ | ⟨s', ss⟩⟩
  · rfl
  · rfl
  · simp [setNews, List.foldl_map]

/-- **Splitting a group**: its fine elements get the classes of their coarse elements, and nothing
else changes. -/
theorem splits_splitGroup (hfine : (g.map Prod.snd).Nodup) (huniform : Uniform c g) :
    Splits g c (splitGroup (c, n, change) g).1 := by
  rw [splitGroup_eq]
  dsimp only
  split
  · next hle =>
    refine ⟨id, fun _ => .refl c, fun _ _ => rfl, fun cf hcf cf' hcf' => ?_⟩
    obtain ⟨s, hs, hmem⟩ := exists_group (k := fun cf => c.classOf cf.1) hcf
    obtain ⟨s', hs', hmem'⟩ := exists_group (k := fun cf => c.classOf cf.1) hcf'
    have heq : s = s' := eq_of_length_le_one hle hs hs'
    exact ⟨fun _ => ((hmem' cf).mp (heq ▸ (hmem cf).mpr ⟨hcf, rfl⟩)).2, fun _ => huniform cf hcf cf' hcf'⟩
  · set ss := (group (fun cf => c.classOf cf.1) g).map fun s => s.map Prod.snd with hss
    have hmem : ∀ {s x}, s ∈ ss → x ∈ s → ∃ cf ∈ g, cf.2 = x := by
      intro s x hs hx
      obtain ⟨g', hg', rfl⟩ := List.mem_map.mp hs
      obtain ⟨cf, hcf, rfl⟩ := List.mem_map.mp hx
      exact ⟨cf, (group_sublist hg').subset hcf, rfl⟩
    have hdisj : ss.Pairwise List.Disjoint := group_fines_disjoint hfine
    refine ⟨Fresh.setNews, fun hfresh => finer_setNews hfresh ?_, fun e he => ?_, ?_⟩
    · intro s hs s' hs' x hx y hy
      obtain ⟨cf, hcf, rfl⟩ := hmem hs hx
      obtain ⟨cf', hcf', rfl⟩ := hmem hs' hy
      exact huniform cf hcf cf' hcf'
    · refine classOf_setNews_of_notMem fun s hs hes => ?_
      obtain ⟨cf, hcf, rfl⟩ := hmem hs hes
      exact he cf hcf rfl
    · intro cf hcf cf' hcf'
      obtain ⟨s, hs, hs_iff⟩ := exists_group (k := fun cf => c.classOf cf.1) hcf
      obtain ⟨s', hs', hs'_iff⟩ := exists_group (k := fun cf => c.classOf cf.1) hcf'
      have hcfs : cf ∈ s := (hs_iff cf).mpr ⟨hcf, rfl⟩
      have hcfs' : cf' ∈ s' := (hs'_iff cf').mpr ⟨hcf', rfl⟩
      rw [classOf_setNews_eq_iff hdisj (List.mem_map_of_mem hs) (List.mem_map_of_mem hs')
        (List.mem_map_of_mem hcfs) (List.mem_map_of_mem hcfs')]
      constructor
      · intro heq
        obtain ⟨cf₁, hcf₁, heq₁⟩ := List.mem_map.mp (heq ▸ List.mem_map_of_mem (f := Prod.snd) hcfs)
        obtain rfl := List.inj_on_of_nodup_map hfine ((group_sublist hs').subset hcf₁) hcf heq₁
        exact eq_of_group hs' hcf₁ hcfs'
      · intro heq
        rw [group_unique hs hs' hcfs hcfs' heq]

end Splitting

section Ready

variable {c c' : Classes ε κ} {g : Refinement ε}

theorem Finer.apart (h : Finer c c') (ha : Apart c g) : Apart c' g :=
  fun cf hcf cf' hcf' heq => ha cf hcf cf' hcf' (h _ _ heq)

theorem Apart.holds (h : Apart c g) : Holds c g :=
  fun cf hcf cf' hcf' heq => h cf hcf cf' hcf' heq ▸ rfl

/-- A group that can be split: its fine elements are all the elements of one class. -/
structure Ready (c : Classes ε κ) (g : Refinement ε) : Prop where
  fine : (g.map Prod.snd).Nodup
  uniform : Uniform c g
  whole : ∀ cf ∈ g, ∀ e, c.classOf e = c.classOf cf.2 → ∃ cf' ∈ g, cf'.2 = e

/-- Splitting a group leaves the others as they are. -/
theorem Ready.of_splits {g' : Refinement ε} (h : Ready c g') (hfresh : Fresh c) (hs : Splits g c c')
    (hdisj : (g.map Prod.snd).Disjoint (g'.map Prod.snd)) : Ready c' g' := by
  have hother : ∀ cf ∈ g', c'.classOf cf.2 = c.classOf cf.2 := fun cf hcf =>
    hs.others cf.2 fun cf' hcf' heq =>
      hdisj (heq ▸ List.mem_map_of_mem hcf') (List.mem_map_of_mem hcf)
  refine ⟨h.fine, fun cf hcf cf' hcf' => ?_, fun cf hcf e he => ?_⟩
  · rw [hother cf hcf, hother cf' hcf', h.uniform cf hcf cf' hcf']
  · exact h.whole cf hcf e (hs.finer hfresh _ _ he)

/-- Some pair of the refinement was told apart. -/
def Moved (r : Refinement ε) (c c' : Classes ε κ) : Prop :=
  ∃ cf ∈ r, ∃ cf' ∈ r, c.classOf cf.2 = c.classOf cf'.2 ∧ c'.classOf cf.2 ≠ c'.classOf cf'.2

theorem Moved.finer {g' : Refinement ε} {c'' : Classes ε κ} (h : Moved g c c') (hg : g ⊆ g')
    (hc : Finer c' c'') : Moved g' c c'' := by
  obtain ⟨cf, hcf, cf', hcf', hsame, hne⟩ := h
  exact ⟨cf, hg hcf, cf', hg hcf', hsame, fun heq => hne (hc _ _ heq)⟩

theorem Moved.of_finer {c'' : Classes ε κ} (h : Moved g c' c'') (hc : Finer c c') : Moved g c c'' := by
  obtain ⟨cf, hcf, cf', hcf', hsame, hne⟩ := h
  exact ⟨cf, hcf, cf', hcf', hc _ _ hsame, hne⟩

end Ready

/-! ## What is told apart -/

section Told

variable {c₀ c c' : Classes ε κ} {rs : List (Refinement ε)} {e e' : ε} {g r : Refinement ε}

/-- Elements are told apart by the classes they start in, and as fine elements when the coarse ones
are. -/
inductive ToldApart (c₀ : Classes ε κ) (rs : List (Refinement ε)) : ε → ε → Prop
  | start {e e' : ε} : c₀.classOf e ≠ c₀.classOf e' → ToldApart c₀ rs e e'
  | step {r : Refinement ε} {cf cf' : ε × ε} : r ∈ rs → cf ∈ r → cf' ∈ r →
      ToldApart c₀ rs cf.1 cf'.1 → ToldApart c₀ rs cf.2 cf'.2

/-- Only elements that are told apart are in different classes. -/
structure Sound (c₀ : Classes ε κ) (rs : List (Refinement ε)) (c : Classes ε κ) : Prop where
  fresh : Fresh c
  finer : Finer c₀ c
  told : ∀ e e', c.classOf e ≠ c.classOf e' → ToldApart c₀ rs e e'

theorem sound_start (h : Fresh c₀) : Sound c₀ rs c₀ := ⟨h, .refl c₀, fun _ _ => .start⟩

theorem Sound.of_splits (h : Sound c₀ rs c) (hg : Ready c g) (hr : r ∈ rs) (hgr : g ⊆ r)
    (hs : Splits g c c') : Sound c₀ rs c' := by
  refine ⟨hs.fresh h.fresh, h.finer.trans (hs.finer h.fresh), fun e e' hne => ?_⟩
  by_cases hold : c.classOf e = c.classOf e'
  · have hin : (∃ cf ∈ g, cf.2 = e) ∨ ∃ cf ∈ g, cf.2 = e' := by
      by_contra hnot
      push Not at hnot
      exact hne ((hs.others e hnot.1).trans (hold.trans (hs.others e' hnot.2).symm))
    obtain ⟨cf, hcf, rfl⟩ | ⟨cf', hcf', rfl⟩ := hin
    · obtain ⟨cf', hcf', rfl⟩ := hg.whole cf hcf e' hold.symm
      exact .step hr (hgr hcf) (hgr hcf') (h.told _ _ fun heq => hne ((hs.inner cf hcf cf' hcf').mpr heq))
    · obtain ⟨cf, hcf, rfl⟩ := hg.whole cf' hcf' e hold
      exact .step hr (hgr hcf) (hgr hcf') (h.told _ _ fun heq => hne ((hs.inner cf hcf cf' hcf').mpr heq))
  · exact h.told e e' hold

end Told

/-! ## Refining -/

section Refining

variable [DecidableEq ε] [DecidableEq κ] {c₀ c c' : Classes ε κ} {rs : List (Refinement ε)}
  {r : Refinement ε}

/-- What splitting groups of a refinement does: `n` counts the classes it makes of the groups. -/
structure SplitAll (gs : List (Refinement ε)) (r : Refinement ε) (st st' : Classes ε κ × ℕ × Bool) :
    Prop where
  finer : Finer st.1 st'.1
  count : st'.2.1 ≤ st.2.1 + (gs.map List.length).sum
  apart : st'.2.1 = st.2.1 + (gs.map List.length).sum → ∀ g ∈ gs, Apart st'.1 g
  still : st'.2.2 = false → st.2.2 = false ∧ st'.1 = st.1 ∧ ∀ g ∈ gs, Holds st.1 g
  moved : st'.2.2 = true → st.2.2 = true ∨ Moved r st.1 st'.1

theorem splitGroup_still {n : ℕ} {change : Bool} {g : Refinement ε}
    (h : (splitGroup (c, n, change) g).2.2 = false) :
    change = false ∧ (splitGroup (c, n, change) g).1 = c := by
  rw [splitGroup_eq] at h ⊢
  dsimp only at h ⊢
  split at h
  · next hle => exact ⟨h, by rw [if_pos hle]⟩
  · cases h

theorem splitGroup_moved {n : ℕ} {change : Bool} {g : Refinement ε} (hg : Ready c g)
    (h : (splitGroup (c, n, change) g).2.2 = true) :
    change = true ∨ Moved g c (splitGroup (c, n, change) g).1 := by
  have hs : Splits g c (splitGroup (c, n, change) g).1 := splits_splitGroup hg.fine hg.uniform
  by_cases hle : (group (fun cf => c.classOf cf.1) g).length ≤ 1
  · rw [splitGroup_eq] at h
    dsimp only at h
    rw [if_pos hle] at h
    exact .inl h
  · -- two classes of coarse elements
    refine .inr ?_
    by_contra hnot
    refine hle (Nat.le_of_not_lt fun hlt => ?_)
    have hpair := group_pairwise (fun cf => c.classOf cf.1) g
    have hmem := fun s (hs : s ∈ group (fun cf => c.classOf cf.1) g) => mem_group.mp hs
    generalize hgroup : group (fun cf => c.classOf cf.1) g = ss at hlt hpair hmem
    obtain _ | ⟨s, _ | ⟨s', ss⟩⟩ := ss
    · cases hlt
    · exact absurd hlt (Nat.lt_irrefl 1)
    obtain ⟨cf, hcf, hcfs⟩ := hmem s (by simp)
    obtain ⟨cf', hcf', hcfs'⟩ := hmem s' (by simp)
    refine hnot ⟨cf, hcf, cf', hcf', hg.uniform cf hcf cf' hcf', fun heq => ?_⟩
    exact (List.pairwise_cons.mp hpair).1 s' (List.mem_cons_self ..) cf (by simp [hcfs, hcf]) cf'
      (by simp [hcfs', hcf']) ((hs.inner cf hcf cf' hcf').mp heq)

/-- **Splitting the groups of a refinement.** -/
theorem splitAll (hr : r ∈ rs) : ∀ {gs : List (Refinement ε)} {s : Classes ε κ × ℕ × Bool},
    (∀ g ∈ gs, Ready s.1 g ∧ g ⊆ r) →
    (gs.map fun g => g.map Prod.snd).Pairwise List.Disjoint → Sound c₀ rs s.1 →
    Sound c₀ rs (gs.foldl splitGroup s).1 ∧ SplitAll gs r s (gs.foldl splitGroup s)
  | [], _, _, _, hsound => by
    exact ⟨hsound, .refl _, Nat.le_refl _, by simp, fun h => ⟨h, rfl, by simp⟩, .inl⟩
  | g :: gs, (c, n, change), hready, hdisj, hsound => by
    obtain ⟨hg, hgr⟩ := hready g (List.mem_cons_self ..)
    obtain ⟨hdisj₀, hdisj⟩ := List.pairwise_cons.mp hdisj
    have hs : Splits g c (splitGroup (c, n, change) g).1 := splits_splitGroup hg.fine hg.uniform
    have hfiner := hs.finer hsound.fresh
    obtain ⟨hsound', hall⟩ := splitAll hr (s := splitGroup (c, n, change) g)
      (fun g' hg' => ⟨(hready g' (List.mem_cons_of_mem _ hg')).1.of_splits hsound.fresh hs
        (hdisj₀ _ (List.mem_map_of_mem hg')), (hready g' (List.mem_cons_of_mem _ hg')).2⟩) hdisj
      (hsound.of_splits hg hr hgr hs)
    have heq := splitGroup_eq (c, n, change) g
    have hle := length_group_le (fun cf => c.classOf cf.1) g
    have hnum : (splitGroup (c, n, change) g).2.1 = n + (group (fun cf => c.classOf cf.1) g).length := by
      rw [heq]
      dsimp only
      split <;> rfl
    refine ⟨hsound', hfiner.trans hall.finer, ?_, fun h => ?_, fun h => ?_, fun h => ?_⟩
    · have hcount := hall.count
      simp only [List.foldl_cons, List.map_cons, List.sum_cons]
      omega
    · have hcount := hall.count
      simp only [List.foldl_cons, List.map_cons, List.sum_cons] at h ⊢
      rintro g' hg'
      obtain rfl | hg' := List.mem_cons.mp hg'
      · -- the group has as many classes as pairs
        refine hall.finer.apart fun cf hcf cf' hcf' hsame => ?_
        exact eq_of_length_group (k := fun cf => c.classOf cf.1) (by omega) hcf hcf'
          ((hs.inner cf hcf cf' hcf').mp hsame)
      · exact hall.apart (by omega) g' hg'
    · obtain ⟨hflag, hc, hholds⟩ := hall.still h
      obtain ⟨rfl, hc₁⟩ := splitGroup_still hflag
      refine ⟨rfl, hc.trans hc₁, fun g' hg' => ?_⟩
      obtain rfl | hg' := List.mem_cons.mp hg'
      · intro cf hcf cf' hcf' hsame
        exact (hs.inner cf hcf cf' hcf').mp (hc₁.symm ▸ hsame)
      · exact hc₁ ▸ hholds g' hg'
    · obtain hflag | hmoved := hall.moved h
      · exact (splitGroup_moved hg hflag).imp id fun hm => hm.finer hgr hall.finer
      · exact .inr (hmoved.of_finer hfiner)

/-- The fine elements are whole classes. -/
def Whole (c : Classes ε κ) (r : Refinement ε) : Prop :=
  ∀ cf ∈ r, ∀ e, c.classOf e = c.classOf cf.2 → ∃ cf' ∈ r, cf'.2 = e

/-- What `refine` does, with the flags it gives. -/
structure Refined (r : Refinement ε) (c c' : Classes ε κ) (change keep : Bool) : Prop where
  finer : Finer c c'
  apart : keep = false → Apart c' r
  still : change = false → c' = c ∧ Holds c r
  moved : change = true → Moved r c c'

/-- **`refine` keeps what must be kept and sees what it changes.** -/
theorem refined_refine (hr : r ∈ rs) (hfine : (r.map Prod.snd).Nodup) (hwhole : Whole c r)
    (hsound : Sound c₀ rs c) : Sound c₀ rs (refine r c).1 ∧
      Refined r c (refine r c).1 (refine r c).2.1 (refine r c).2.2 := by
  unfold refine
  dsimp only
  split
  · next hlen =>
    have hapart : Apart c r := fun cf hcf cf' hcf' hsame => eq_of_length_group hlen hcf hcf' hsame
    exact ⟨hsound, .refl c, fun _ => hapart, fun _ => ⟨rfl, hapart.holds⟩, by simp⟩
  · have hready : ∀ g ∈ group (fun cf => c.classOf cf.2) r, Ready c g ∧ g ⊆ r := by
      intro g hg
      have hsub := group_sublist hg
      refine ⟨⟨(hsub.map Prod.snd).nodup hfine, fun cf hcf cf' hcf' => eq_of_group hg hcf hcf',
        fun cf hcf e he => ?_⟩, hsub.subset⟩
      obtain ⟨cf', hcf', rfl⟩ := hwhole cf (hsub.subset hcf) e he
      exact ⟨cf', mem_group_of_eq hg hcf hcf' he, rfl⟩
    obtain ⟨hsound', hall⟩ := splitAll (s := (c, 0, false)) hr hready (group_fines_disjoint hfine) hsound
    have hmem : ∀ {cf cf'}, cf ∈ r → cf' ∈ r → c.classOf cf.2 = c.classOf cf'.2 →
        ∃ g ∈ group (fun cf => c.classOf cf.2) r, cf ∈ g ∧ cf' ∈ g := by
      intro cf cf' hcf hcf' hsame
      obtain ⟨g, hg, hiff⟩ := exists_group (k := fun cf => c.classOf cf.2) hcf
      exact ⟨g, hg, (hiff cf).mpr ⟨hcf, rfl⟩, (hiff cf').mpr ⟨hcf', hsame.symm⟩⟩
    refine ⟨hsound', hall.finer, fun hkeep => ?_, fun hchange => ?_, fun hchange => ?_⟩
    · intro cf hcf cf' hcf' hsame
      obtain ⟨g, hg, hcfg, hcfg'⟩ := hmem hcf hcf' (hall.finer _ _ hsame)
      refine hall.apart ?_ g hg cf hcfg cf' hcfg' hsame
      rw [sum_length_group, Nat.zero_add]
      exact (not_not.mp (of_decide_eq_false hkeep)).symm
    · obtain ⟨-, hc, hholds⟩ := hall.still hchange
      refine ⟨hc, fun cf hcf cf' hcf' hsame => ?_⟩
      obtain ⟨g, hg, hcfg, hcfg'⟩ := hmem hcf hcf' hsame
      exact hholds g hg cf hcfg cf' hcfg' hsame
    · obtain h | h := hall.moved hchange
      · cases h
      · exact h

/-- What one pass over refinements does. -/
structure Passed (rs : List (Refinement ε)) (st st' : List (Refinement ε) × Bool × Classes ε κ) :
    Prop where
  finer : Finer st.2.2 st'.2.2
  kept : ∀ r ∈ st.1, r ∈ st'.1
  apart : ∀ r ∈ rs, r ∈ st'.1 ∨ Apart st'.2.2 r
  mem : ∀ r ∈ st'.1, r ∈ st.1 ∨ r ∈ rs
  still : st'.2.1 = false → st.2.1 = false ∧ st'.2.2 = st.2.2 ∧ ∀ r ∈ rs, Holds st.2.2 r
  moved : st'.2.1 = true → st.2.1 = true ∨ ∃ r ∈ rs, Moved r st.2.2 st'.2.2

/-- **One pass over refinements.** -/
theorem passed (hfine : ∀ r ∈ rs, (r.map Prod.snd).Nodup) (hwhole : ∀ r ∈ rs, Whole c₀ r) :
    ∀ {l : List (Refinement ε)} {s : List (Refinement ε) × Bool × Classes ε κ}, l ⊆ rs →
      Sound c₀ rs s.2.2 →
      Sound c₀ rs (l.foldl refineNext s).2.2 ∧ Passed l s (l.foldl refineNext s)
  | [], _, _, hsound => by
    exact ⟨hsound, .refl _, fun _ => id, by simp, fun _ => .inl, fun h => ⟨h, rfl, by simp⟩, .inl⟩
  | r :: rs', (kept, change, c), hsub, hsound => by
    have hr : r ∈ rs := hsub (List.mem_cons_self ..)
    obtain ⟨hsound', href⟩ := refined_refine hr (hfine r hr)
      (fun cf hcf e he => hwhole r hr cf hcf e (hsound.finer _ _ he)) hsound
    obtain ⟨hsound'', hall⟩ := passed hfine hwhole (l := rs')
      (s := refineNext (kept, change, c) r) (fun x hx => hsub (List.mem_cons_of_mem _ hx)) hsound'
    refine ⟨hsound'', href.finer.trans hall.finer, fun x hx => hall.kept x ?_, fun x hx => ?_,
      fun x hx => ?_, fun h => ?_, fun h => ?_⟩
    · unfold refineNext
      dsimp only
      split
      · exact List.mem_cons_of_mem _ hx
      · exact hx
    · obtain rfl | hx := List.mem_cons.mp hx
      · by_cases hkeep : (refine x c).2.2 = true
        · exact .inl (hall.kept x (by simp [refineNext, hkeep]))
        · exact .inr (hall.finer.apart (href.apart (by simpa using hkeep)))
      · exact hall.apart x hx
    · obtain hx | hx := hall.mem x hx
      · unfold refineNext at hx
        dsimp only at hx
        split at hx
        · obtain rfl | hx := List.mem_cons.mp hx
          · exact .inr (List.mem_cons_self ..)
          · exact .inl hx
        · exact .inl hx
      · exact .inr (List.mem_cons_of_mem _ hx)
    · obtain ⟨hflag, hc, hholds⟩ := hall.still h
      obtain ⟨rfl, hflag⟩ := Bool.or_eq_false_iff.mp hflag
      obtain ⟨hc', hr_holds⟩ := href.still hflag
      refine ⟨rfl, hc.trans hc', fun x hx => ?_⟩
      obtain rfl | hx := List.mem_cons.mp hx
      · exact hr_holds
      · exact hc' ▸ hholds x hx
    · obtain hflag | ⟨x, hx, hmoved⟩ := hall.moved h
      · refine ((Bool.or_eq_true _ _).mp hflag).imp id fun hflag => ?_
        exact ⟨r, List.mem_cons_self .., (href.moved hflag).finer (fun _ => id) hall.finer⟩
      · exact .inr ⟨x, List.mem_cons_of_mem _ hx, hmoved.of_finer href.finer⟩

/-- The pairs of elements of a set that are in one class. -/
def together (U : Finset ε) (c : Classes ε κ) : Finset (ε × ε) :=
  (U ×ˢ U).filter fun ee => c.classOf ee.1 = c.classOf ee.2

omit [DecidableEq ε] in
theorem together_lt {U : Finset ε} (hU : ∀ cf ∈ r, cf.2 ∈ U) (hfiner : Finer c c')
    (hmoved : Moved r c c') : (together U c').card < (together U c).card := by
  obtain ⟨cf, hcf, cf', hcf', hsame, hne⟩ := hmoved
  refine Finset.card_lt_card ((Finset.ssubset_iff_of_subset fun ee hee => ?_).mpr ⟨(cf.2, cf'.2), ?_, ?_⟩)
  · simp only [together, Finset.mem_filter] at hee ⊢
    exact ⟨hee.1, hfiner _ _ hee.2⟩
  · simp [together, hU cf hcf, hU cf' hcf', hsame]
  · simp [together, hne]

/-- The loop ends with classes that all the refinements hold of. -/
theorem fixedPoint_loop {U : Finset ε} (hfine : ∀ r ∈ rs, (r.map Prod.snd).Nodup)
    (hwhole : ∀ r ∈ rs, Whole c₀ r) (hU : ∀ r ∈ rs, ∀ cf ∈ r, cf.2 ∈ U) :
    ∀ {n : ℕ} {rs' : List (Refinement ε)} {c : Classes ε κ}, (together U c).card < n → rs' ⊆ rs →
      (∀ r ∈ rs, r ∈ rs' ∨ Apart c r) → Sound c₀ rs c →
      Sound c₀ rs (fixedPoint n rs' c) ∧ ∀ r ∈ rs, Holds (fixedPoint n rs' c) r
  | 0, _, _, hn, _, _, _ => absurd hn (Nat.not_lt_zero _)
  | n + 1, rs', c, hn, hsub, hcover, hsound => by
    obtain ⟨hsound', hall⟩ := passed hfine hwhole (s := ([], false, c)) hsub hsound
    unfold fixedPoint
    dsimp only
    split
    · next hchange =>
      obtain h | ⟨r, hr, hmoved⟩ := hall.moved hchange
      · cases h
      have hlt := together_lt (U := U) (hU r (hsub hr)) hall.finer hmoved
      refine fixedPoint_loop hfine hwhole hU (Nat.lt_of_lt_of_le hlt (Nat.le_of_lt_succ hn))
        (fun x hx => ?_) (fun x hx => ?_) hsound'
      · exact (hall.mem x hx).elim (fun h => absurd h List.not_mem_nil) fun h => hsub h
      · exact (hcover x hx).elim (hall.apart x) fun h => .inr (hall.finer.apart h)
    · next hchange =>
      obtain ⟨-, hc, hholds⟩ := hall.still (by simpa using hchange)
      rw [hc]
      exact ⟨hsound, fun r hr => (hcover r hr).elim (hholds r) Apart.holds⟩

/-- **The fixed point**: elements stay together exactly when nothing tells them apart. -/
theorem fixedPoint_spec (hfresh : Fresh c₀) (hfine : ∀ r ∈ rs, (r.map Prod.snd).Nodup)
    (hwhole : ∀ r ∈ rs, Whole c₀ r) {n : ℕ} (hn : (rs.flatten.length) ^ 2 < n) {e e' : ε} :
    (fixedPoint n rs c₀).classOf e = (fixedPoint n rs c₀).classOf e' ↔ ¬ ToldApart c₀ rs e e' := by
  have hcard : (together (rs.flatten.map Prod.snd).toFinset c₀).card ≤ rs.flatten.length ^ 2 := by
    refine (Finset.card_filter_le _ _).trans ?_
    rw [Finset.card_product, ← pow_two]
    refine Nat.pow_le_pow_left ((List.toFinset_card_le _).trans ?_) 2
    rw [List.length_map]
  obtain ⟨hsound, hholds⟩ := fixedPoint_loop (U := (rs.flatten.map Prod.snd).toFinset) hfine hwhole
    (fun r hr cf hcf => List.mem_toFinset.mpr (List.mem_map_of_mem (List.mem_flatten.mpr ⟨r, hr, hcf⟩)))
    (Nat.lt_of_le_of_lt hcard hn) (fun _ => id) (fun _ => .inl) (sound_start hfresh)
  refine ⟨fun heq htold => ?_, fun htold => by_contra fun hne => htold (hsound.told e e' hne)⟩
  induction htold with
  | start hne => exact hne (hsound.finer _ _ heq)
  | step hr hcf hcf' _ ih => exact ih (hholds _ hr _ hcf _ hcf' heq)

/-- The refinements hold of the fixed point. -/
theorem fixedPoint_holds (hfresh : Fresh c₀) (hfine : ∀ r ∈ rs, (r.map Prod.snd).Nodup)
    (hwhole : ∀ r ∈ rs, Whole c₀ r) {n : ℕ} (hn : (rs.flatten.length) ^ 2 < n) (hr : r ∈ rs) :
    Holds (fixedPoint n rs c₀) r := by
  intro cf hcf cf' hcf' hsame
  have hspec : ∀ {e e'}, (fixedPoint n rs c₀).classOf e = (fixedPoint n rs c₀).classOf e' ↔
      ¬ ToldApart c₀ rs e e' := fixedPoint_spec hfresh hfine hwhole hn
  exact hspec.mpr fun htold => hspec.mp hsame (.step hr hcf hcf' htold)

end Refining

end MLton.PartitionRefinement
