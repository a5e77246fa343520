import Mathlib.Data.List.Basic

/-!
# Machinery/EntryState — one state at the entry of each node

A node takes the state that control enters it with to the one that control leaves it with, or fails.  A walk
over the graph gives each node the state of the first visit and compares the later ones with it.  It succeeds
exactly when no path makes a node fail and all paths to a node bring the same state (`exists_visit_iff`).
-/

namespace MLton.EntryState

variable {ν σ : Type*} (succ : ν → List ν) (out : ν → σ → Option σ)

section

variable [DecidableEq ν] [DecidableEq σ]

/-- One visit.  The number bounds the depth of the recursion. -/
def visit : ℕ → (ν → Option σ) → ν → σ → Option (ν → Option σ)
  | 0, _, _, _ => none
  | n + 1, entry, v, s =>
    match entry v with
    | none => (out v s).bind fun s' =>
        (succ v).foldlM (fun entry w => visit n entry w s') (Function.update entry v (some s))
    | some s' => if s = s' then some entry else none

end

/-- Some path gets to the node with the state. -/
inductive Arrives (root : ν) (s₀ : σ) : ν → σ → Prop
  | root : Arrives root s₀ root s₀
  | step {u v : ν} {s s' : σ} : Arrives root s₀ u s → out u s = some s' → v ∈ succ u → Arrives root s₀ v s'

/-- **No node fails**, and all paths bring the same state. -/
structure Consistent (root : ν) (s₀ : σ) : Prop where
  runs : ∀ {v s}, Arrives succ out root s₀ v s → ∃ s', out v s = some s'
  single : ∀ {v s s'}, Arrives succ out root s₀ v s → Arrives succ out root s₀ v s' → s = s'

variable {succ out} {n : ℕ} {entry entry' : ν → Option σ} {root v w : ν} {s s' t s₀ : σ} {U vs : List ν}

/-- The entry states that are known stay known. -/
def Kept (entry entry' : ν → Option σ) : Prop := ∀ v s, entry v = some s → entry' v = some s

theorem Kept.trans {entry'' : ν → Option σ} (h : Kept entry entry') (h' : Kept entry' entry'') : Kept entry entry'' :=
  fun v s hv => h' v s (h v s hv)

/-- The node has been left, with what its successors are entered with. -/
def Left (succ : ν → List ν) (out : ν → σ → Option σ) (entry : ν → Option σ) (v : ν) (s : σ) : Prop :=
  ∃ s', out v s = some s' ∧ ∀ w ∈ succ v, entry w = some s'

theorem Left.kept (h : Left succ out entry v s) (hkept : Kept entry entry') : Left succ out entry' v s :=
  let ⟨s', hs', hall⟩ := h
  ⟨s', hs', fun w hw => hkept w s' (hall w hw)⟩

/-! ## What succeeds is consistent -/

/-- What a visit that succeeds finds out. -/
structure Found (succ : ν → List ν) (out : ν → σ → Option σ) (entry entry' : ν → Option σ) : Prop where
  kept : Kept entry entry'
  left : ∀ {w t}, entry' w = some t → entry w = some t ∨ Left succ out entry' w t

theorem Found.trans {entry'' : ν → Option σ} (h : Found succ out entry entry')
    (h' : Found succ out entry' entry'') : Found succ out entry entry'' where
  kept := h.kept.trans h'.kept
  left hw := (h'.left hw).elim (fun hw => (h.left hw).imp_right (Left.kept · h'.kept)) .inr

theorem foldlM_found {visit : (ν → Option σ) → ν → Option (ν → Option σ)}
    (hvisit : ∀ {entry w entry'}, visit entry w = some entry' → Found succ out entry entry' ∧ entry' w = some s) :
    ∀ {vs : List ν} {entry entry' : ν → Option σ}, vs.foldlM visit entry = some entry' →
      Found succ out entry entry' ∧ ∀ w ∈ vs, entry' w = some s
  | [], entry, entry', h => by
      obtain rfl := Option.some.inj h
      exact ⟨⟨fun _ _ => id, .inl⟩, by simp⟩
  | v :: vs, entry, entry', h => by
      obtain ⟨entry₁, h₁, h⟩ := Option.bind_eq_some_iff.mp h
      obtain ⟨hfound₁, hv⟩ := hvisit h₁
      obtain ⟨hfound, hvs⟩ := foldlM_found hvisit h
      exact ⟨hfound₁.trans hfound, List.forall_mem_cons.mpr ⟨hfound.kept _ _ hv, hvs⟩⟩

variable [DecidableEq ν]

theorem kept_update (hv : entry v = none) : Kept entry (Function.update entry v (some s)) := by
  intro w t hw
  have hne : w ≠ v := by
    rintro rfl
    cases hv.symm.trans hw
  rwa [Function.update_of_ne hne]

variable [DecidableEq σ]

theorem visit_found : ∀ {n : ℕ} {entry entry' : ν → Option σ} {v : ν} {s : σ},
    visit succ out n entry v s = some entry' → Found succ out entry entry' ∧ entry' v = some s
  | n + 1, entry, entry', v, s, h => by
      unfold visit at h
      split at h
      · next hv =>
        obtain ⟨s', hs', h⟩ := Option.bind_eq_some_iff.mp h
        obtain ⟨hfound, hall⟩ := foldlM_found (fun h => visit_found h) h
        have hself : entry' v = some s := hfound.kept _ _ (Function.update_self ..)
        refine ⟨⟨(kept_update hv).trans hfound.kept, fun {w t} hw => ?_⟩, hself⟩
        obtain hw' | hw' := hfound.left hw
        · by_cases hwv : w = v
          · subst hwv
            obtain rfl := Option.some.inj (hself.symm.trans hw)
            exact .inr ⟨s', hs', hall⟩
          · rw [Function.update_of_ne hwv] at hw'
            exact .inl hw'
        · exact .inr hw'
      · next s' hv =>
        obtain ⟨rfl, rfl⟩ : s = s' ∧ entry = entry' := by simpa using h
        exact ⟨⟨fun _ _ => id, .inl⟩, hv⟩

theorem consistent_of_visit (h : visit succ out n (fun _ => none) root s₀ = some entry) :
    Consistent succ out root s₀ := by
  obtain ⟨hfound, hroot⟩ := visit_found h
  have hleft : ∀ {v s}, entry v = some s → Left succ out entry v s := fun hv =>
    (hfound.left hv).resolve_left nofun
  have hentry : ∀ {v s}, Arrives succ out root s₀ v s → entry v = some s := by
    intro v s harr
    induction harr with
    | root => exact hroot
    | step _ hout hv ih =>
      obtain ⟨s', hs', hall⟩ := hleft ih
      obtain rfl := Option.some.inj (hout.symm.trans hs')
      exact hall _ hv
  exact ⟨fun harr => let ⟨s', hs', _⟩ := hleft (hentry harr); ⟨s', hs'⟩,
    fun h h' => Option.some.inj ((hentry h).symm.trans (hentry h'))⟩

/-! ## What is consistent succeeds -/

/-- How many nodes have no state yet. -/
def unset (U : List ν) (entry : ν → Option σ) : ℕ := (U.filter fun v => (entry v).isNone).length

omit [DecidableEq ν] [DecidableEq σ] in
theorem unset_anti (h : Kept entry entry') : unset U entry' ≤ unset U entry := by
  refine List.Sublist.length_le (List.monotone_filter_right U fun v hv => ?_)
  cases hv' : entry v with
  | none => rfl
  | some s =>
    rw [h v s hv'] at hv
    cases hv

omit [DecidableEq σ] in
theorem unset_update_lt (hU : v ∈ U) (hv : entry v = none) :
    unset U (Function.update entry v (some s)) < unset U entry := by
  have hfilter : (U.filter fun w => (Function.update entry v (some s) w).isNone) =
      (U.filter fun w => (entry w).isNone).filter (· ≠ v) := by
    rw [List.filter_filter]
    refine List.filter_congr fun w _ => ?_
    by_cases hw : w = v
    · subst hw
      simp
    · simp [hw]
  rw [unset, unset, hfilter, List.length_filter_lt_length_iff_exists]
  exact ⟨v, List.mem_filter.mpr ⟨hU, by simp [hv]⟩, by simp⟩

section

variable (hU : ∀ v ∈ U, succ v ⊆ U) (hcons : Consistent succ out root s₀)

include hU hcons

theorem exists_visit : ∀ {n : ℕ} {entry : ν → Option σ} {v : ν} {s : σ},
    (∀ {w t}, entry w = some t → Arrives succ out root s₀ w t) → Arrives succ out root s₀ v s → v ∈ U →
    unset U entry < n → ∃ entry', visit succ out n entry v s = some entry' ∧ Kept entry entry' ∧
      ∀ {w t}, entry' w = some t → Arrives succ out root s₀ w t
  | n + 1, entry, v, s, hentry, harr, hvU, hn => by
      unfold visit
      split
      · next hv =>
        obtain ⟨s', hs'⟩ := hcons.runs harr
        have hupdate : ∀ {w t}, Function.update entry v (some s) w = some t → Arrives succ out root s₀ w t := by
          intro w t hw
          by_cases hwv : w = v
          · subst hwv
            rw [Function.update_self] at hw
            obtain rfl := Option.some.inj hw
            exact harr
          · rw [Function.update_of_ne hwv] at hw
            exact hentry hw
        have hfold : ∀ {vs : List ν} {entry : ν → Option σ}, vs ⊆ succ v →
            (∀ {w t}, entry w = some t → Arrives succ out root s₀ w t) → unset U entry < n →
            ∃ entry', vs.foldlM (fun entry w => visit succ out n entry w s') entry = some entry' ∧
              Kept entry entry' ∧ ∀ {w t}, entry' w = some t → Arrives succ out root s₀ w t := by
          intro vs
          induction vs with
          | nil => exact fun {entry} _ hentry _ => ⟨entry, rfl, fun _ _ => id, hentry⟩
          | cons w vs ih =>
            intro entry hvs hentry hn
            obtain ⟨hw, hvs⟩ := List.cons_subset.mp hvs
            obtain ⟨entry₁, h₁, hkept₁, hentry₁⟩ :=
              exists_visit (n := n) hentry (harr.step hs' hw) (hU v hvU hw) hn
            obtain ⟨entry₂, h₂, hkept₂, hentry₂⟩ := ih hvs hentry₁ (Nat.lt_of_le_of_lt (unset_anti hkept₁) hn)
            exact ⟨entry₂, by rw [List.foldlM_cons, h₁]; exact h₂, hkept₁.trans hkept₂, hentry₂⟩
        obtain ⟨entry', h, hkept, hentry'⟩ := hfold (List.Subset.refl _) hupdate
          (Nat.lt_of_lt_of_le (unset_update_lt hvU hv) (Nat.le_of_lt_succ hn))
        exact ⟨entry', by rw [hs']; exact h, (kept_update hv).trans hkept, hentry'⟩
      · next s' hv =>
        exact ⟨entry, if_pos (hcons.single harr (hentry hv)), fun _ _ => id, hentry⟩

end

/-- **The walk succeeds exactly when** no node fails and all paths bring the same state. -/
theorem exists_visit_iff (hU : ∀ v ∈ U, succ v ⊆ U) (hroot : root ∈ U) (hn : U.length < n) :
    (∃ entry, visit succ out n (fun _ => none) root s₀ = some entry) ↔ Consistent succ out root s₀ := by
  constructor
  · rintro ⟨entry, h⟩
    exact consistent_of_visit h
  · intro hcons
    have hunset : unset U (fun _ : ν => (none : Option σ)) < n := Nat.lt_of_le_of_lt (List.length_filter_le ..) hn
    have hnone : ∀ {w t}, (fun _ : ν => (none : Option σ)) w = some t → Arrives succ out root s₀ w t := fun h => nomatch h
    obtain ⟨entry, h, -, -⟩ := exists_visit hU hcons hnone .root hroot hunset
    exact ⟨entry, h⟩

end MLton.EntryState
