import MLton.Elaborate.Timed

/-!
# Elaborate/Walks — what a walk over types finds out

A walk is described by what it keeps (`I`), by how the state goes on (`le`), by what it finds out about a type
(`P`) and by what holds of a type it is inside of (`Q`).  If that goes through at each kind of type, it goes
through for the walk, with its memory (`Walk.homAt_ends`).
-/

namespace MLton.TypeEnv

open Raises

variable {τ β : Type}

/-- A walk that goes through. -/
structure Walk (env : τ → Env) (z : Hom τ β) (I : τ → Prop) (le : τ → τ → Prop)
    (P : TypeId → β → τ → Prop) (Q : TypeId → τ → Prop) : Prop where
  wf {s : τ} : I s → (env s).Wf
  refl (s : τ) : le s s
  trans (s₁ s₂ s₃ : τ) : le s₁ s₂ → le s₂ s₃ → le s₁ s₃
  root {s s' : τ} : le s s' → (env s').root = (env s).root
  next {s s' : τ} : le s s' → (env s).next ≤ (env s').next
  mono {n : TypeId} {b : β} {s s' : τ} : I s → P n b s → le s s' → P n b s'
  congr {n m : TypeId} {b : β} {s : τ} : I s → (env s).root n = (env s).root m → P n b s → P m b s
  congrQ {n m : TypeId} {s : τ} : I s → (env s).root n = (env s).root m → Q n s → Q m s
  guard {n : TypeId} {s : τ} : I s → n < (env s).next →
    (z.guard n).Ends s (fun o s' => I s' ∧ le s s' ∧ (∀ m, Q m s → Q m s') ∧
      (∀ b, o = some b → P n b s') ∧ (o = none → Q n s')) fun _ _ => True
  apply {n : TypeId} {bs : List β} {s s' : τ} : I s → I s' → le s s' → n < (env s).next → Q n s' →
    (((env s).getTy n).components = [] → s' = s) →
    List.Forall₂ (P · · s') ((env s).getTy n).components bs →
    (z.apply n ((env s).getTy n) bs).Ends s' (fun b s'' => I s'' ∧ le s' s'' ∧ P n b s'' ∧
      ∀ m, (env s').root m ≠ (env s').root n → Q m s' → Q m s'') fun _ _ => True
  recursive {n : TypeId} {s : τ} : I s → Q n s → (z.recursive n).Ends s (fun b s' => I s' ∧ le s s' ∧
    P n b s' ∧ ∀ m, Q m s → Q m s') fun _ _ => True

variable {env : τ → Env} {z : Hom τ β} {I : τ → Prop} {le : τ → τ → Prop} {P : TypeId → β → τ → Prop}
  {Q : TypeId → τ → Prop}

/-- What the memory says is true. -/
structure Recalls (env : τ → Env) (I : τ → Prop) (P : TypeId → β → τ → Prop) (Q : TypeId → τ → Prop)
    (s : τ) (memo : Memo β) : Prop where
  kept : I s
  root {r : TypeId} : memo r ≠ .unseen → (env s).root r = r
  seen {r : TypeId} {b : β} : memo r = .seen b → P r b s
  processing {r : TypeId} : memo r = .processing → Q r s

/-- The state goes on, and the walk comes back to the types it is inside of. -/
def GoesOn (le : τ → τ → Prop) (s s' : τ × Memo β) : Prop :=
  le s.1 s'.1 ∧ ∀ r, s'.2 r = .processing ↔ s.2 r = .processing

namespace Walk

variable (h : Walk env z I le P Q)

include h

theorem mark_processing {s : τ} {memo : Memo β} {n : TypeId} (hs : Recalls env I P Q s memo) (hn : Q n s) :
    Recalls env I P Q s (Function.update memo ((env s).root n) .processing) := by
  have hr := (h.wf hs.kept).root_root n
  refine ⟨hs.kept, fun {r} hne => ?_, fun {r b} hseen => ?_, fun {r} hproc => ?_⟩
  all_goals by_cases heq : r = (env s).root n
  · exact heq ▸ hr
  · exact hs.root (by rwa [Function.update_of_ne heq] at hne)
  · rw [heq, Function.update_self] at hseen
    exact nomatch hseen
  · exact hs.seen (by rwa [Function.update_of_ne heq] at hseen)
  · exact h.congrQ hs.kept (hr.symm.trans (congrArg _ heq.symm)) hn
  · exact hs.processing (by rwa [Function.update_of_ne heq] at hproc)

/-- A type has been found out about. -/
theorem mark_seen {s t : τ} {memo : Memo β} {n : TypeId} {b : β} (hs : Recalls env I P Q s memo) (ht : I t)
    (hle : le s t) (hb : P n b t) (hQ : ∀ m, (env s).root m ≠ (env s).root n → Q m s → Q m t) :
    Recalls env I P Q t (Function.update memo ((env s).root n) (.seen b)) := by
  have hroot := h.root hle
  have hr := (h.wf hs.kept).root_root n
  refine ⟨ht, fun {r} hne => ?_, fun {r b'} hseen => ?_, fun {r} hproc => ?_⟩
  all_goals by_cases heq : r = (env s).root n
  · rw [heq, hroot, hr]
  · rw [hroot]
    exact hs.root (by rwa [Function.update_of_ne heq] at hne)
  · rw [heq, Function.update_self] at hseen
    obtain rfl := Status.seen.inj hseen
    exact h.congr ht (by rw [heq, hroot, hr]) hb
  · exact h.mono hs.kept (hs.seen (by rwa [Function.update_of_ne heq] at hseen)) hle
  · rw [heq, Function.update_self] at hproc
    exact nomatch hproc
  · rw [Function.update_of_ne heq] at hproc
    refine hQ r (fun heq' => heq ?_) (hs.processing hproc)
    rw [← heq', hs.root (by rw [hproc]; exact nofun)]

theorem goesOn_refl (s : τ × Memo β) : GoesOn le s s := ⟨h.refl _, fun _ => Iff.rfl⟩

/-- The types of a list, if the walk goes through for each of them. -/
theorem each_ends {k : ℕ} {ns : List TypeId} {s : τ × Memo β} (hs : Recalls env I P Q s.1 s.2)
    (hn : ∀ n ∈ ns, ∀ s', Recalls env I P Q s'.1 s'.2 → GoesOn le s s' → (homAt env z k n).Ends s'
      (fun b s'' => Recalls env I P Q s''.1 s''.2 ∧ GoesOn le s' s'' ∧ P n b s''.1) fun _ _ => True) :
    (each (homAt env z k) ns).Ends s (fun bs s' => Recalls env I P Q s'.1 s'.2 ∧ GoesOn le s s' ∧
      List.Forall₂ (P · · s'.1) ns bs) fun _ _ => True := by
  have htrans : ∀ s₁ s₂ s₃ : τ × Memo β, GoesOn le s₁ s₂ → GoesOn le s₂ s₃ → GoesOn le s₁ s₃ :=
    fun _ _ _ h₁ h₂ => ⟨h.trans _ _ _ h₁.1 h₂.1, fun r => (h₂.2 r).trans (h₁.2 r)⟩
  have hmono : ∀ (c : TypeId) (b : β) (s s' : τ × Memo β), Recalls env I P Q s.1 s.2 → P c b s.1 →
      GoesOn le s s' → P c b s'.1 := fun _ _ _ _ hs hb hle => h.mono hs.kept hb hle.1
  exact Ends.each (I := fun s => Recalls env I P Q s.1 s.2) (P := fun c b s => P c b s.1) h.goesOn_refl htrans
    hmono hs hn

/-- **The walk goes through**, with its memory. -/
theorem homAt_ends : ∀ (k : ℕ) {n : TypeId} {s : τ × Memo β}, Recalls env I P Q s.1 s.2 → n < (env s.1).next →
    (homAt env z k n).Ends s (fun b s' => Recalls env I P Q s'.1 s'.2 ∧ GoesOn le s s' ∧ P n b s'.1) fun _ _ => True
  | 0, _, _, _, _ => trivial
  | k + 1, n, s, hs, hn => by
    have hr := (h.wf hs.kept).root_root n
    simp only [homAt, ends_bind, ends_get]
    cases hmemo : s.2 ((env s.1).root n) with
    | seen b => exact ⟨hs, ⟨h.refl _, fun _ => Iff.rfl⟩, h.congr hs.kept hr (hs.seen hmemo)⟩
    | processing =>
      simp only [visit, ends_zoom]
      refine (h.recursive hs.kept (h.congrQ hs.kept hr (hs.processing hmemo))).mono (fun b t => ?_) fun _ _ _ => trivial
      rintro ⟨ht, hle, hb, hQ⟩
      refine ⟨⟨ht, fun hne => ?_, fun hseen => h.mono hs.kept (hs.seen hseen) hle,
        fun hproc => hQ _ (hs.processing hproc)⟩, ⟨hle, fun _ => Iff.rfl⟩, hb⟩
      rw [h.root hle]
      exact hs.root hne
    | unseen =>
      simp only [ends_bind, visit, ends_zoom]
      refine (h.guard hs.kept hn).mono (fun o t => ?_) fun _ _ _ => trivial
      rintro ⟨ht, hle, hQ, hsome, hnone⟩
      have hroot := h.root hle
      cases o with
      | some b =>
        simp only [mark, ends_bind, ends_modify, ends_pure]
        refine ⟨h.mark_seen hs ht hle (hsome b rfl) fun m _ => hQ m, ⟨hle, fun r => ?_⟩, hsome b rfl⟩
        by_cases heq : r = (env s.1).root n
        · simp only [heq, Function.update_self, hmemo, reduceCtorEq]
        · simp only [Function.update_of_ne heq]
      | none =>
        have hs₁ : Recalls env I P Q t s.2 :=
          ⟨ht, fun hne => hroot ▸ hs.root hne, fun hseen => h.mono hs.kept (hs.seen hseen) hle,
            fun hproc => hQ _ (hs.processing hproc)⟩
        have hs₂ := h.mark_processing hs₁ (hnone rfl)
        rw [hroot] at hs₂
        have hn' : n < (env t).next := hn.trans_le (h.next hle)
        simp only [mark, ends_bind, ends_modify, ends_get]
        have heach : (each (homAt env z k) ((env t).getTy n).components).Ends
            (t, Function.update s.2 ((env s.1).root n) .processing)
            (fun bs s' => (((env t).getTy n).components = [] → s'.1 = t) ∧ Recalls env I P Q s'.1 s'.2 ∧
              GoesOn le (t, Function.update s.2 ((env s.1).root n) .processing) s' ∧
              List.Forall₂ (fun c b => P c b s'.1) ((env t).getTy n).components bs) fun _ _ => True := by
          by_cases hnil : ((env t).getTy n).components = []
          · rw [hnil]
            exact ⟨fun _ => rfl, hs₂, ⟨h.refl _, fun _ => Iff.rfl⟩, .nil⟩
          · refine (h.each_ends hs₂ fun c hc s' hs' hle' => ?_).mono
              (fun bs s' hbs => ⟨fun hnil' => absurd hnil' hnil, hbs⟩) fun _ _ h => h
            exact homAt_ends k hs' (((h.wf ht).component_lt n c hc).trans_le (h.next hle'.1))
        refine heach.mono (fun bs s₃ => ?_) fun _ _ _ => trivial
        rintro ⟨hnil, hs₃, ⟨hle₃, hproc₃⟩, hbs⟩
        have hroot₃ : (env s₃.1).root = (env s.1).root := (h.root hle₃).trans hroot
        have hproc : s₃.2 ((env s.1).root n) = .processing := (hproc₃ _).mpr (Function.update_self ..)
        have hQn : Q n s₃.1 := h.congrQ hs₃.kept (by rw [hroot₃, hr]) (hs₃.processing hproc)
        simp only [ends_zoom]
        refine (h.apply ht hs₃.kept hle₃ hn' hQn hnil hbs).mono (fun b t' => ?_) fun _ _ _ => trivial
        rintro ⟨ht', hle', hb, hQ'⟩
        simp only [ends_pure]
        have hs₄ := h.mark_seen hs₃ ht' hle' hb hQ'
        rw [hroot₃] at hs₄
        refine ⟨hs₄, ⟨h.trans _ _ _ hle (h.trans _ _ _ hle₃ hle'), fun r => ?_⟩, hb⟩
        by_cases heq : r = (env s.1).root n
        · simp only [heq, Function.update_self, hmemo, reduceCtorEq]
        · simp only [Function.update_of_ne heq]
          exact (hproc₃ r).trans (by simp only [Function.update_of_ne heq])

omit h in
theorem recalls_unseen {s : τ} (hs : I s) : Recalls env I P Q s (fun _ => (.unseen : Status β)) :=
  ⟨hs, fun hne => absurd rfl hne, nofun, nofun⟩

/-- **The walk goes through.** -/
theorem hom_ends {k : ℕ} {n : TypeId} {s : τ} (hs : I s) (hn : n < (env s).next) :
    (hom env z k n).Ends s (fun b s' => I s' ∧ le s s' ∧ P n b s') fun _ _ => True := by
  simp only [hom, ends_zoom]
  refine (h.homAt_ends k (recalls_unseen hs) hn).mono (fun b s' => ?_) fun _ _ _ => trivial
  rintro ⟨hs', hle, hb⟩
  exact ⟨hs'.kept, hle.1, hb⟩

/-- The walk goes through for several types. -/
theorem homs_ends {k : ℕ} {ns : List TypeId} {s : τ} (hs : I s) (hns : ∀ n ∈ ns, n < (env s).next) :
    (homs env z k ns).Ends s (fun bs s' => I s' ∧ le s s' ∧ List.Forall₂ (P · · s') ns bs) fun _ _ => True := by
  simp only [homs, ends_zoom]
  refine (h.each_ends (recalls_unseen hs) fun n hn s' hs' hle' => ?_).mono (fun bs s' => ?_) fun _ _ _ => trivial
  · exact h.homAt_ends k hs' ((hns n hn).trans_le (h.next hle'.1))
  · rintro ⟨hs', hle, hbs⟩
    exact ⟨hs'.kept, hle.1, hbs⟩

end Walk

end MLton.TypeEnv
