import MLton.Elaborate.UnifyKept

/-!
# Elaborate/Generalize — closing a declaration keeps the times sound

What is closed with a declaration is later than the time before it, so what fits an earlier time does not
have it inside (`close_ends`).
-/

namespace MLton.TypeEnv

open Raises TermGraph

variable {σ σ' σ'' : Env} {L L' : Generalized} {n t : TypeId} {b : Time} {k : ℕ}

theorem Sound.anti (h : Sound L σ) (hL : ∀ x ∈ L', x ∈ L) : Sound L' σ :=
  { h with
    generalized := fun g b hb => h.generalized g b (hL _ hb)
    fits := fun n m hr => ⟨(h.fits n m hr).1, fun g b hg hb => (h.fits n m hr).2 g b hg (hL _ hb)⟩ }

/-! ## New type variables and generic records -/

/-- Something new that has been closed with a declaration is in no type yet. -/
theorem Sound.cons {g : Generic} (h : Sound L σ) (hmade : g.Made σ) (hb : b < σ.clock)
    (ha : ∀ a, g = .tyvar a → b < (σ.tyvars a).time) (hnew : ∀ n, (σ.getTy n).generic ≠ some g) :
    Sound ((g, b) :: L) σ := by
  refine { h with generalized := fun g' b' hb' => ?_, fits := fun n m hr => ⟨(h.fits n m hr).1, fun g' b' hg' hb' => ?_⟩ }
  · rcases List.mem_cons.mp hb' with heq | hb'
    · obtain ⟨rfl, rfl⟩ := Prod.mk.inj heq
      exact ⟨hmade, hb, ha⟩
    · exact h.generalized g' b' hb'
  · rcases List.mem_cons.mp hb' with heq | hb'
    · exact absurd ((Prod.mk.inj heq).1 ▸ hg') (hnew m)
    · exact (h.fits n m hr).2 g' b' hg' hb'

/-- **Time goes on for the types that are there**: none is lost, and none gets later. -/
structure Onwards (σ σ' : Env) : Prop where
  next : σ.next ≤ σ'.next
  time : ∀ n < σ.next, σ'.time n ≤ σ.time n
  clock : σ.clock ≤ σ'.clock

namespace Onwards

theorem refl (σ : Env) : Onwards σ σ := ⟨le_rfl, fun _ _ => le_rfl, le_rfl⟩

theorem trans (h : Onwards σ σ') (h' : Onwards σ' σ'') : Onwards σ σ'' :=
  ⟨h.next.trans h'.next, fun n hn => (h'.time n (hn.trans_le h.next)).trans (h.time n hn), h.clock.trans h'.clock⟩

end Onwards

/-! ## The walk -/

namespace Close

variable {ensure : List Tyvar} {s s' s'' : Closing}

/-- **What has been closed so far is later than the time before the declaration.** -/
def Kept (L : Generalized) (b : Time) (ensure : List Tyvar) (s : Closing) : Prop :=
  b < s.env.clock ∧ ∃ L', Sound L' s.env ∧ (∀ x ∈ L, x ∈ L') ∧
    (∀ g ∈ s.flexes, (Generic.flex g.extra, b) ∈ L') ∧ ∀ a ∈ s.tyvars, a ∉ ensure → (Generic.tyvar a, b) ∈ L'

/-- The walk changes what the types are, but not their times. -/
structure Goes (s s' : Closing) : Prop where
  root : s'.env.root = s.env.root
  next : s'.env.next = s.env.next
  time : s'.env.time = s.env.time
  clock : s'.env.clock = s.env.clock

theorem Goes.refl (s : Closing) : Goes s s := ⟨rfl, rfl, rfl, rfl⟩

theorem Goes.trans (h : Goes s s') (h' : Goes s' s'') : Goes s s'' :=
  ⟨h'.root.trans h.root, h'.next.trans h.next, h'.time.trans h.time, h'.clock.trans h.clock⟩

/-- A type that is later than the declaration was begun. -/
def Late (b : Time) (n : TypeId) (s : Closing) : Prop := n < s.env.next ∧ b < s.env.time n

theorem Late.goes (h : Late b n s) (hg : Goes s s') : Late b n s' := by
  rwa [Late, hg.next, hg.time]

theorem flexRecord_ends (h : Kept L b ensure s) (hlate : Late b n s) :
    (flexRecord n).Ends s (fun _ s' => Kept L b ensure s' ∧ Goes s s') fun _ _ => True := by
  obtain ⟨hb, L', hs, hL, hflexes, htyvars⟩ := h
  simp only [flexRecord, ends_bind, ends_get]
  cases hty : s.env.getTy n with
  | flexRecord fields spine =>
    simp only [within, ends_bind, ends_get, ends_zoom, ends_modify]
    -- the state with the new record's extra fields
    have hs' : Sound L' { s.env with
        nextExtra := s.env.nextExtra + 1, extras := Function.update s.env.extras s.env.nextExtra [] } :=
      hs.congr rfl rfl rfl rfl le_rfl (Nat.le_succ _) le_rfl (fun _ _ => rfl) hs.spines
    have hnew : ∀ m, (s.env.getTy m).generic ≠ some (.flex s.env.nextExtra) := fun m hm =>
      (hs.made m _ hm).false
    have hsound := hs'.generalize (t := n) (g := .flex s.env.nextExtra) (b := b) hlate.1 ?_ hlate.2
      (id : ¬ (Ty.genFlexRecord s.env.nextExtra fields spine).Open) rfl trivial (Nat.lt_succ_self s.env.nextExtra) (by rintro _ ⟨⟩)
      hnew (fun b' hb' => (hs.generalized _ b' hb').1.false) ?_
    · refine ⟨⟨hb, _, hsound, fun x hx => List.mem_cons_of_mem _ (hL x hx), fun g hg => ?_,
        fun a ha hne => List.mem_cons_of_mem _ (htyvars a ha hne)⟩, rfl, rfl, funext fun m => time_setTy, rfl⟩
      rcases List.mem_cons.mp hg with rfl | hg
      · exact List.mem_cons_self
      · exact List.mem_cons_of_mem _ (hflexes g hg)
    · exact (congrArg Ty.Open hty).mpr trivial
    · exact (congrArg Ty.components hty).symm
  | _ => exact trivial

theorem unknown_ends {u : Unknown} (h : Kept L b ensure s) (hlate : Late b n s)
    (hty : s.env.getTy n = .unknown u) :
    (unknown n u).Ends s (fun _ s' => Kept L b ensure s' ∧ Goes s s') fun _ _ => True := by
  -- the type variable, once the equality is known
  have hvar : ∀ (equality : Bool) (s : Closing), Kept L b ensure s → Late b n s → s.env.getTy n = .unknown u →
      (do
        let a ← within (makeNoname equality)
        modify fun s => { s with tyvars := a :: s.tyvars }
        within (modify fun σ => σ.setTy n (.var a)) : Raises Exn Closing Unit).Ends s
        (fun _ s' => Kept L b ensure s' ∧ Goes s s') fun _ _ => True := by
    rintro equality s ⟨hb, L', hs, hL, hflexes, htyvars⟩ hlate hty
    simp only [within, ends_bind, ends_zoom, ends_modify]
    have hs' : Sound L' { s.env with
        nextTyvar := s.env.nextTyvar + 1
        tyvars := Function.update s.env.tyvars s.env.nextTyvar ⟨equality, s.env.clock⟩ } :=
      hs.congr rfl rfl rfl rfl le_rfl le_rfl (Nat.le_succ _)
        (fun a ha => Function.update_of_ne (Nat.ne_of_lt ha) _ _) hs.spines
    have hnew : ∀ m, (s.env.getTy m).generic ≠ some (.tyvar s.env.nextTyvar) := fun m hm =>
      (hs.made m _ hm).false
    have htime : ∀ a, Generic.tyvar s.env.nextTyvar = .tyvar a →
        b < (Function.update s.env.tyvars s.env.nextTyvar ⟨equality, s.env.clock⟩ a).time := by
      intro a ha
      rw [← Generic.tyvar.inj ha, Function.update_self]
      exact hb
    have hsound := hs'.generalize (t := n) (g := .tyvar s.env.nextTyvar) (b := b) hlate.1 ?_ hlate.2
      (id : ¬ (Ty.var s.env.nextTyvar).Open) rfl trivial (Nat.lt_succ_self s.env.nextTyvar) htime
      hnew (fun b' hb' => (hs.generalized _ b' hb').1.false) ?_
    · refine ⟨⟨hb, _, hsound, fun x hx => List.mem_cons_of_mem _ (hL x hx),
        fun g hg => List.mem_cons_of_mem _ (hflexes g hg), fun a ha hne => ?_⟩, rfl, rfl, funext fun m => time_setTy, rfl⟩
      rcases List.mem_cons.mp ha with rfl | ha
      · exact List.mem_cons_self
      · exact List.mem_cons_of_mem _ (htyvars a ha hne)
    · exact (congrArg Ty.Open hty).mpr trivial
    · exact (congrArg Ty.components hty).symm
  simp only [unknown]
  split_ifs
  · exact ⟨h, .refl s⟩
  · simp only [ends_bind, ends_get]
    cases hequality : s.env.equality n with
    | unknown =>
      simp only [ends_bind, within, ends_zoom, ends_modify, ends_pure]
      obtain ⟨hb, L', hs, hrest⟩ := h
      have hs' : Sound L' (s.env.setEquality n .false) :=
        hs.congr rfl rfl rfl rfl le_rfl le_rfl le_rfl (fun _ _ => rfl) hs.spines
      have := hvar false { s with env := s.env.setEquality n .false } ⟨hb, L', hs', hrest⟩ hlate hty
      simp only [ends_bind, within, ends_zoom, ends_modify] at this
      exact ⟨this.1, this.2.root, this.2.next, this.2.time, this.2.clock⟩
    | false => exact ends_bind.mp (hvar false s h hlate hty)
    | true => exact ends_bind.mp (hvar true s h hlate hty)

/-- **The walk closes what is later than the declaration was begun.** -/
theorem walks : Walk Closing.env (walk b) (Kept L b ensure) Goes (fun _ _ _ => True) (Late b) where
  wf h := by
    obtain ⟨_, _, hs, _⟩ := h
    exact hs.toWf
  refl := Goes.refl
  trans _ _ _ := Goes.trans
  root h := h.root
  next h := h.next.ge
  mono _ _ _ := trivial
  congr _ _ _ := trivial
  congrQ := by
    rintro n m s ⟨-, L', hs, -⟩ heq ⟨hn, hlt⟩
    exact ⟨hs.lt_of_root heq hn, time_congr heq ▸ hlt⟩
  guard := by
    rintro n s hs hn
    simp only [walk, ends_bind, ends_get]
    split_ifs with hle
    · exact ⟨hs, .refl s, fun _ h => h, fun _ _ => trivial, (by rintro ⟨⟩)⟩
    · exact ⟨hs, .refl s, fun _ h => h, (by rintro _ ⟨⟩), fun _ => ⟨hn, not_le.mp hle⟩⟩
  apply := by
    rintro n bs s s' - hs' - - hlate hnil -
    have hpure : (pure () : Raises Exn Closing Unit).Ends s' (fun _ s'' => Kept L b ensure s'' ∧ Goes s' s'' ∧ True ∧
        ∀ m, s'.env.root m ≠ s'.env.root n → Late b m s' → Late b m s'') fun _ _ => True :=
      ⟨hs', .refl s', trivial, fun _ _ h => h⟩
    have hgoes : ∀ x : Raises Exn Closing Unit, x.Ends s' (fun _ s'' => Kept L b ensure s'' ∧ Goes s' s'')
        (fun _ _ => True) → x.Ends s' (fun _ s'' => Kept L b ensure s'' ∧ Goes s' s'' ∧ True ∧
        ∀ m, s'.env.root m ≠ s'.env.root n → Late b m s' → Late b m s'') fun _ _ => True := fun x hx =>
      hx.mono (fun _ _ h => ⟨h.1, h.2, trivial, fun _ _ hm => hm.goes h.2⟩) fun _ _ _ => trivial
    cases hty : s.env.getTy n with
    | flexRecord => exact hgoes _ (flexRecord_ends hs' hlate)
    | unknown u =>
      obtain rfl := hnil (by rw [hty]; rfl)
      exact hgoes _ (unknown_ends hs' hlate hty)
    | _ => exact hpure
  recursive hs _ := ⟨hs, .refl _, trivial, fun _ h => h⟩

end Close

/-! ## Closing a declaration -/

/-- What a declaration has been closed with, beside the type variables it had to be closed with. -/
def Closed.generalized (c : Closed) (b : Time) (ensure : List Tyvar) : Generalized :=
  c.flexes.map (fun g => (.flex g.extra, b)) ++ (c.tyvars.filter (· ∉ ensure)).map fun a => (.tyvar a, b)

theorem Extends.onwards (h : Extends σ σ') : Onwards σ σ' := ⟨h.next, h.time, h.clock.ge⟩

theorem restrict_ends {v : VarType} (h : Sound L σ) (hb : b < σ.clock) (hv : v.ty < σ.next) :
    (restrict k b v).Ends σ (fun v' σ' => Sound L σ' ∧ Extends σ σ' ∧ v'.ty = v.ty) fun _ _ => True := by
  simp only [restrict]
  split_ifs
  · exact ⟨h, .refl σ, rfl⟩
  · rw [ends_bind]
    refine (checkTime_ends h hv hb.le).mono (fun o σ' => ?_) fun _ _ _ => trivial
    rintro ⟨h', ⟨he, -⟩, -⟩
    cases o with
    | none => exact ⟨h', he, rfl⟩
    | some _ => exact ⟨h', he, rfl⟩

/-- **A declaration is closed**: the times stay sound, and nothing that it is closed with is inside of a type that
is no later than its beginning. -/
theorem close_ends {ensure : List Tyvar} {vs : List VarType} (h : Sound L σ) (hb : b < σ.clock)
    (hvs : ∀ v ∈ vs, v.ty < σ.next) :
    (close k b ensure vs).Ends σ (fun c σ' => Sound (c.generalized b ensure ++ L) σ' ∧ Onwards σ σ')
      fun _ _ => True := by
  simp only [close, ends_bind]
  have heach := Ends.each (f := restrict k b) (l := vs) (s := σ) (ε := Exn) (E := fun _ _ => True)
    (I := fun σ' => Sound L σ' ∧ Extends σ σ') (P := fun v v' _ => v'.ty = v.ty) Extends.refl
    (fun _ _ _ => Extends.trans) (fun _ _ _ _ _ hv _ => hv) ⟨h, .refl σ⟩ fun v hv σ' => by
      rintro ⟨h', he⟩ _
      refine (restrict_ends h' (he.clock ▸ hb) ((hvs v hv).trans_le he.next)).mono (fun v' σ'' => ?_)
        fun _ _ _ => trivial
      rintro ⟨h'', he', hv'⟩
      exact ⟨⟨h'', he.trans he'⟩, he', hv'⟩
  refine heach.mono (fun vs' σ₁ => ?_) fun _ _ h => h
  rintro ⟨⟨h₁, he⟩, -, hvs'⟩
  simp only [ends_get]
  -- nothing is closed with a declaration but the type variables it has to be closed with
  have hnil : ∀ schemes, Sound ((⟨[], ensure, schemes⟩ : Closed).generalized b ensure ++ L) σ₁ := fun schemes => by
    refine h₁.anti fun x hx => ?_
    simpa [Closed.generalized] using hx
  split_ifs
  · exact ⟨hnil _, he.onwards⟩
  · have hmem : ∀ n ∈ vs'.map VarType.ty, n < σ₁.next := by
      intro n hn
      obtain ⟨v', hv', rfl⟩ := List.mem_map.mp hn
      obtain ⟨i, hi, rfl⟩ := List.mem_iff_getElem.mp hv'
      have hi' : i < vs.length := hvs'.length_eq ▸ hi
      rw [show vs'[i].ty = vs[i].ty from hvs'.get hi' hi]
      exact (hvs _ (List.getElem_mem hi')).trans_le he.next
    simp only [ends_zoom, ends_bind, ends_get, ends_pure]
    have hstart : Close.Kept L b ensure (⟨σ₁, [], ensure⟩ : Closing) :=
      ⟨he.clock ▸ hb, L, h₁, fun _ hx => hx, fun _ hg => absurd hg List.not_mem_nil, fun _ ha hne => absurd ha hne⟩
    refine (Close.walks.homs_ends (k := k) hstart hmem).mono (fun _ s => ?_) fun _ _ _ => trivial
    rintro ⟨⟨-, L', hs, hL, hflexes, htyvars⟩, hg, -⟩
    refine ⟨hs.anti fun x hx => ?_, he.next.trans hg.next.ge, fun n hn => ?_, (hg.clock.trans he.clock).ge⟩
    · rcases List.mem_append.mp hx with hx | hx
      · rcases List.mem_append.mp hx with hx | hx
        · obtain ⟨g, hg, rfl⟩ := List.mem_map.mp hx
          exact hflexes g hg
        · obtain ⟨a, ha, rfl⟩ := List.mem_map.mp hx
          obtain ⟨ha, hne⟩ := List.mem_filter.mp ha
          exact htyvars a ha (of_decide_eq_true hne)
      · exact hL x hx
    · rw [hg.time]
      exact he.time n hn

/-! ## The fields a generic record is given later -/

/-- The type variables among fields, with the time before the declaration they belong to. -/
def extras (b : Time) (old new : List (Field × Tyvar)) : Generalized :=
  (new.filter (· ∉ old)).map fun x => (.tyvar x.2, b)

/-- A type variable for each of some fields. -/
theorem tyvars_ends : ∀ {fs : List Field} {ac : List (Field × Tyvar)} {σ : Env} {L : Generalized}, Sound L σ →
    b < σ.clock → (fs.foldlM (fun ac f => do
      let tyvar ← makeNoname false
      pure ((f, tyvar) :: ac)) ac : Elaborates (List (Field × Tyvar))).Ends σ (fun new σ' => Onwards σ σ' ∧
        ∃ L', Sound L' σ' ∧ (∀ x ∈ L, x ∈ L') ∧ ∀ x ∈ new, x ∈ ac ∨ (Generic.tyvar x.2, b) ∈ L') fun _ _ => True
  | [], _, σ, L, h, _ => ⟨.refl σ, L, h, fun _ hx => hx, fun _ hx => .inl hx⟩
  | f :: fs, ac, σ, L, h, hb => by
    rw [List.foldlM_cons]
    simp only [ends_bind, ends_pure]
    let σ₁ : Env := { σ with
      nextTyvar := σ.nextTyvar + 1
      tyvars := Function.update σ.tyvars σ.nextTyvar ⟨false, σ.clock⟩ }
    have h₁ : Sound L σ₁ := h.congr rfl rfl rfl rfl le_rfl le_rfl (Nat.le_succ _)
      (fun a ha => Function.update_of_ne (Nat.ne_of_lt ha) _ _) h.spines
    have h₁' : Sound ((.tyvar σ.nextTyvar, b) :: L) σ₁ := by
      refine h₁.cons (Nat.lt_succ_self σ.nextTyvar) hb (fun a ha => ?_) fun m hm => (h.made m _ hm).false
      rw [← Generic.tyvar.inj ha]
      simp only [σ₁, Function.update_self]
      exact hb
    refine Ends.mono (s := σ₁) (tyvars_ends h₁' hb) (fun new σ' => ?_) fun _ _ _ => trivial
    rintro ⟨ho, L', h', hL, hnew⟩
    refine ⟨(show Onwards σ σ₁ from ⟨le_rfl, fun _ _ => le_rfl, le_rfl⟩).trans ho, L', h', fun x hx => hL x (List.mem_cons_of_mem _ hx),
      fun x hx => ?_⟩
    rcases hnew x hx with hx | hx
    · rcases List.mem_cons.mp hx with rfl | hx
      · exact .inr (hL _ List.mem_cons_self)
      · exact .inl hx
    · exact .inr hx

/-- **A generic record is given fields**: their type variables belong to the declaration it was closed with. -/
theorem extra_ends {g : GenFlexRecord} (h : Sound L σ) (hb : b < σ.clock) :
    (extra g).Ends σ (fun new σ' => Sound (extras b (σ.extras g.extra) new ++ L) σ' ∧ Onwards σ σ')
      fun _ _ => True := by
  simp only [extra, Spine.foldOverNew, ends_bind, ends_get, ends_modify, ends_pure]
  refine (tyvars_ends h hb).mono (fun new σ' => ?_) fun _ _ _ => trivial
  rintro ⟨ho, L', h', hL, hnew⟩
  have h'' : Sound L' { σ' with extras := Function.update σ'.extras g.extra new } :=
    h'.congr rfl rfl rfl rfl le_rfl le_rfl le_rfl (fun _ _ => rfl) h'.spines
  refine ⟨h''.anti fun x hx => ?_, ho.next, ho.time, ho.clock⟩
  rcases List.mem_append.mp hx with hx | hx
  · obtain ⟨y, hy, rfl⟩ := List.mem_map.mp hx
    obtain ⟨hy, hne⟩ := List.mem_filter.mp hy
    exact (hnew y hy).resolve_left (of_decide_eq_true hne)
  · exact hL x hx

end MLton.TypeEnv
