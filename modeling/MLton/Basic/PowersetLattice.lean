import MLton.Machinery.Dfs

/-!
# Basic/PowersetLattice — sets that flow into sets

A lattice point holds a list without repetition and the points its elements are passed on to.  An element that
is new to a point goes on to all of them, at once and depth first; a point that has it already stops the walk,
and so the walk is no deeper than there are points.
-/

namespace MLton

/-- The points of a `PowerSetLattice_ListSet`: their elements and handlers, latest first. -/
structure PowersetLattice (ν ε : Type*) where
  elements : ν → List ε
  handlers : ν → List ν

namespace PowersetLattice

variable {ν ε : Type*} [DecidableEq ν] [DecidableEq ε] {s s' : PowersetLattice ν ε} {e : ε} {u v : ν} {k : ℕ}
  {U : List ν} {E : ε → Prop}

/-- `empty`, at every point. -/
def empty : PowersetLattice ν ε where
  elements := fun _ => []
  handlers := fun _ => []

/-- `<<`.  The number bounds the depth of the walk. -/
def insert : ℕ → PowersetLattice ν ε → ε → ν → Option (PowersetLattice ν ε)
  | 0, _, _, _ => none
  | k + 1, s, e, v =>
    if e ∈ s.elements v then some s
    else (s.handlers v).foldlM (fun s w => insert k s e w)
      { s with elements := Function.update s.elements v (e :: s.elements v) }

/-- `<=`: push the handler, then pass on the elements there are. -/
def le (k : ℕ) (s : PowersetLattice ν ε) (u v : ν) : Option (PowersetLattice ν ε) :=
  (s.elements u).foldlM (fun s e => insert k s e v)
    { s with handlers := Function.update s.handlers u (v :: s.handlers u) }

/-- The points are among `U`, and hold elements with the property `E` only. -/
structure Within (U : List ν) (E : ε → Prop) (s : PowersetLattice ν ε) : Prop where
  handlers : ∀ u, s.handlers u ⊆ U
  elements : ∀ u, ∀ e ∈ s.elements u, E e

omit [DecidableEq ν] [DecidableEq ε] in
theorem Within.empty : Within U E empty := ⟨by simp [PowersetLattice.empty], by simp [PowersetLattice.empty]⟩

/-- The points of the universe that do not hold `e` yet. -/
def lacking (U : List ν) (s : PowersetLattice ν ε) (e : ε) : ℕ := (U.filter fun u => e ∉ s.elements u).length

omit [DecidableEq ν] in
theorem lacking_le : lacking U s e ≤ U.length := List.length_filter_le _ _

/-- What a walk with `e` leaves: handlers as they were, and no element taken away. -/
structure Grown (U : List ν) (E : ε → Prop) (s s' : PowersetLattice ν ε) : Prop where
  within : Within U E s'
  handlers : s'.handlers = s.handlers
  elements : ∀ u, s.elements u ⊆ s'.elements u

omit [DecidableEq ν] in
theorem Grown.lacking_le (h : Grown U E s s') : lacking U s' e ≤ lacking U s e :=
  (List.monotone_filter_right U fun u hu => by
    simp only [decide_eq_true_eq] at hu ⊢
    exact fun he => hu (h.elements u he)).length_le

theorem lacking_update_lt (hv : v ∈ U) (he : e ∉ s.elements v) :
    lacking U { s with elements := Function.update s.elements v (e :: s.elements v) } e < lacking U s e := by
  have hsub : U.filter (fun u => e ∉ Function.update s.elements v (e :: s.elements v) u) =
      (U.filter fun u => e ∉ s.elements u).filter (· ≠ v) := by
    rw [List.filter_filter]
    refine List.filter_congr fun u _ => ?_
    by_cases huv : u = v
    · simp [huv]
    · simp [huv]
  rw [lacking, lacking, hsub]
  refine List.length_filter_lt_length_iff_exists.mpr ⟨v, ?_, by simp⟩
  simpa using ⟨hv, he⟩

/-- **A walk ends** when its depth may reach the number of points that lack the element. -/
theorem exists_insert (he : E e) : ∀ (k : ℕ) {s : PowersetLattice ν ε} {v : ν}, Within U E s → v ∈ U →
    lacking U s e < k → ∃ s', insert k s e v = some s' ∧ Grown U E s s'
  | k + 1, s, v, hs, hv, hk => by
    by_cases hmem : e ∈ s.elements v
    · exact ⟨s, by simp [insert, hmem], hs, rfl, fun _ => List.Subset.refl _⟩
    · simp only [insert, hmem, if_false]
      have hlt := lacking_update_lt hv hmem
      set s₀ : PowersetLattice ν ε := { s with elements := Function.update s.elements v (e :: s.elements v) }
      have h₀ : Grown U E s s₀ := by
        refine ⟨⟨hs.handlers, fun u x hx => ?_⟩, rfl, fun u => ?_⟩ <;> by_cases huv : u = v
        · subst huv
          simp only [s₀, Function.update_self, List.mem_cons] at hx
          exact hx.elim (fun hx => hx ▸ he) (hs.elements u x)
        · exact hs.elements u x (by simpa [s₀, huv] using hx)
        · simp [s₀, huv]
        · simp [s₀, huv]
      suffices ∀ (ws : List ν) (a : PowersetLattice ν ε), ws ⊆ U → Grown U E s₀ a →
          ∃ s', ws.foldlM (fun s w => insert k s e w) a = some s' ∧ Grown U E s₀ s' by
        obtain ⟨s', hs', hgrown⟩ := this _ s₀ (hs.handlers v) ⟨h₀.within, rfl, fun _ => List.Subset.refl _⟩
        exact ⟨s', hs', hgrown.within, hgrown.handlers,
          fun u => List.Subset.trans (h₀.elements u) (hgrown.elements u)⟩
      intro ws
      induction ws with
      | nil => exact fun a _ ha => ⟨a, rfl, ha⟩
      | cons w ws ih =>
        intro a hws ha
        have hka : lacking U a e < k := Nat.lt_of_le_of_lt ha.lacking_le (by omega)
        obtain ⟨a', ha', hgrown⟩ := exists_insert he k ha.within (hws (List.mem_cons_self ..)) hka
        obtain ⟨s', hs', hs''⟩ := ih a' (fun x hx => hws (List.mem_cons_of_mem _ hx))
          ⟨hgrown.within, hgrown.handlers.trans ha.handlers,
            fun u => List.Subset.trans (ha.elements u) (hgrown.elements u)⟩
        exact ⟨s', by rw [List.foldlM_cons, ha']; exact hs', hs''⟩

/-- The elements of a list go in one after the other. -/
theorem exists_insert_all (hv : v ∈ U) : ∀ (es : List ε) {s : PowersetLattice ν ε}, Within U E s →
    (∀ e ∈ es, E e) → ∃ s', es.foldlM (fun s e => insert (U.length + 1) s e v) s = some s' ∧ Within U E s'
  | [], s, hs, _ => ⟨s, rfl, hs⟩
  | e :: es, s, hs, hes => by
    obtain ⟨s₁, h₁, hgrown⟩ := exists_insert (hes e (List.mem_cons_self ..)) (U.length + 1) hs hv
      (Nat.lt_succ_of_le lacking_le)
    obtain ⟨s', h', hs'⟩ := exists_insert_all hv es hgrown.within fun x hx => hes x (List.mem_cons_of_mem _ hx)
    exact ⟨s', by rw [List.foldlM_cons, h₁]; exact h', hs'⟩

theorem exists_le (hv : v ∈ U) (hs : Within U E s) : ∃ s', le (U.length + 1) s u v = some s' ∧ Within U E s' := by
  refine exists_insert_all hv _ ⟨fun w => ?_, hs.elements⟩ (hs.elements u)
  by_cases hw : w = u
  · subst hw
    simpa using ⟨hv, hs.handlers w⟩
  · simpa [hw] using hs.handlers w

end PowersetLattice

end MLton
