import MLton.Elaborate.Checks

/-!
# Elaborate/Unified — unification keeps the times sound

A unification changes nothing but what is inside its two types, which is what lets a type be put together with
another one after their parts have been: neither is inside of a part, so both still are what they were.

Where an unknown is an equality type, what it is unified with is not made as early as it is.  So soundness is
kept by the unifications that come by only such types as are early enough (`Timely`).
-/

namespace MLton.TypeEnv

open Raises TermGraph

variable {σ σ' σ'' : Env} {L : Generalized} {S S' X : TypeId → Prop} {n m z s s' t : TypeId} {ty : Ty}
  {τ : Time}

/-! ## What is changed -/

/-- What is inside of two types, or not there yet. -/
def Below (σ : Env) (s s' n : TypeId) : Prop := σ.next ≤ n ∨ σ.graph.Reach s n ∨ σ.graph.Reach s' n

/-- A type stays in its set, and the set keeps its cells and its description. -/
def Same (σ σ' : Env) (z : TypeId) : Prop :=
  σ'.cell z = σ.cell z ∧ ∀ n < σ.next, σ'.root n = σ'.root z → σ.root n = σ.root z

theorem Same.trans (h : Same σ σ' z) (h' : Same σ' σ'' z) (hle : σ.next ≤ σ'.next) : Same σ σ'' z :=
  ⟨h'.1.trans h.1, fun n hn heq => h.2 n hn (h'.2 n (hn.trans_le hle) heq)⟩

/-- **Only some of the types are changed**, and nothing is put inside the others. -/
structure Within (S : TypeId → Prop) (σ σ' : Env) : Prop where
  next : σ.next ≤ σ'.next
  grows : σ.graph.Grows σ'.graph
  time : ∀ n < σ.next, σ'.time n ≤ σ.time n
  clock : σ'.clock = σ.clock
  same : ∀ z < σ.next, ¬ S z → Same σ σ' z
  bounded : ∀ n < σ.next, ∀ m < σ.next, σ'.graph.Reach n m → σ.graph.Reach n m ∨ S m

namespace Within

theorem refl (σ : Env) : Within S σ σ :=
  ⟨le_rfl, .refl _, fun _ _ => le_rfl, rfl, fun _ _ _ => ⟨rfl, fun _ _ h => h⟩, fun _ _ _ _ h => .inl h⟩

theorem trans (h : Within S σ σ') (h' : Within S σ' σ'') : Within S σ σ'' where
  next := h.next.trans h'.next
  grows := h.grows.trans h'.grows
  time n hn := (h'.time n (hn.trans_le h.next)).trans (h.time n hn)
  clock := h'.clock.trans h.clock
  same z hz hS := (h.same z hz hS).trans (h'.same z (hz.trans_le h.next) hS) h.next
  bounded n hn m hm hr := by
    rcases h'.bounded n (hn.trans_le h.next) m (hm.trans_le h.next) hr with hr | hS
    · exact h.bounded n hn m hm hr
    · exact .inr hS

theorem mono (h : Within S σ σ') (hS : ∀ n < σ.next, S n → S' n) : Within S' σ σ' where
  next := h.next
  grows := h.grows
  time := h.time
  clock := h.clock
  same z hz hz' := h.same z hz fun hS' => hz' (hS z hz hS')
  bounded n hn m hm hr := (h.bounded n hn m hm hr).imp_right (hS m hm)

/-- What is inside of two types later was inside of them before, or has been changed. -/
theorem below {x y : TypeId} (h : Within (Below σ s s') σ σ') (hx : x < σ.next) (hy : y < σ.next)
    (hsx : Below σ s s' x) (hsy : Below σ s s' y) (hn : Below σ' x y n) : Below σ s s' n := by
  by_cases hlt : n < σ.next
  · have hinside : ∀ {x}, x < σ.next → Below σ s s' x → σ.graph.Reach x n → Below σ s s' n := by
      intro x hx hsx hr
      rcases hsx with hge | hr' | hr'
      · exact absurd hx (not_lt.mpr hge)
      · exact .inr (.inl (hr'.trans hr))
      · exact .inr (.inr (hr'.trans hr))
    rcases hn with hge | hr | hr
    · exact absurd hlt (not_lt.mpr (h.next.trans hge))
    · exact (h.bounded x hx n hlt hr).elim (hinside hx hsx) id
    · exact (h.bounded y hy n hlt hr).elim (hinside hy hsy) id
  · exact .inl (not_lt.mp hlt)

end Within

theorem Extends.grows (h : Extends σ σ') (hwf : σ.Wf) : σ.graph.Grows σ'.graph where
  root heq := by simpa only [graph_root, h.root] using heq
  component {n c} hc := by
    refine ⟨c, ?_, rfl⟩
    rw [components_graph] at hc ⊢
    by_cases hn : n < σ.next
    · rwa [h.getTy hwf hn]
    · rw [hwf.component_nil n (not_lt.mp hn)] at hc
      exact absurd hc List.not_mem_nil

theorem Extends.within (h : Extends σ σ') (hwf : σ.Wf) : Within S σ σ' :=
  ⟨h.next, h.grows hwf, h.time, h.clock,
    fun z hz _ => ⟨h.cell hwf hz, fun n _ heq => by rwa [h.root] at heq⟩,
    fun n hn m _ hr => .inl ((h.reach hwf hn).mp hr)⟩

/-- A type that is changed gets a new description. -/
theorem within_setTy (hS : ∀ n, σ.root n = σ.root s → S n)
    (hkept : ∀ c ∈ (σ.getTy s).components, c ∈ ty.components)
    (hadd : ∀ c ∈ ty.components, c ∈ (σ.getTy s).components ∨ ∀ m < σ.next, σ.graph.Reach c m → S m) :
    Within S σ (σ.setTy s ty) where
  next := le_rfl
  grows := by
    refine ⟨id, fun {n c} hc => ⟨c, ?_, rfl⟩⟩
    rw [components_graph] at hc
    rw [components_graph, getTy_setTy]
    split_ifs with hn
    · exact hkept c (getTy_congr hn ▸ hc)
    · exact hc
  time n _ := time_setTy.le
  clock := rfl
  same z hz hz' := by
    refine ⟨?_, fun _ _ h => h⟩
    simp only [Env.cell, Env.setTy, Env.setCell]
    exact Function.update_of_ne (fun heq => hz' (hS z heq)) _ _
  bounded n hn m hm hr := by
    have hroot : ∀ n m, (σ.setTy s ty).graph.root n = (σ.setTy s ty).graph.root m → σ.graph.root n = σ.graph.root m :=
      fun _ _ heq => heq
    have hr' := hr.of_added (T := fun c => ∀ m < σ.next, σ.graph.Reach c m → S m) hroot fun n c hc => ?_
    · refine hr'.imp_right ?_
      rintro ⟨c, hc, hr⟩
      exact hc m hm hr
    · rw [components_graph, getTy_setTy] at hc
      rw [components_graph]
      split_ifs at hc with hn
      · exact getTy_congr hn ▸ hadd c hc
      · exact .inl hc

/-! ## Types that have been found unifiable -/

/-- **The types have in common the type they can be put together to**: they are still in their sets, and
nothing that was a part of them is lost. -/
structure Agreed (L : Generalized) (σ σ' : Env) (s s' : TypeId) (ty : Ty) : Prop where
  mergeable : Mergeable L σ' s s' ty
  cell : (σ'.cell s).time = (σ.cell s).time ∧ (σ'.cell s).equality = (σ.cell s).equality
  cell' : (σ'.cell s').time = (σ.cell s').time ∧ (σ'.cell s').equality = (σ.cell s').equality
  alone : ∀ n < σ.next, σ'.root n = σ'.root s → σ.root n = σ.root s
  alone' : ∀ n < σ.next, σ'.root n = σ'.root s' → σ.root n = σ.root s'
  covers : ∀ c, c ∈ (σ.getTy s).components ∨ c ∈ (σ.getTy s').components →
    ∃ c' ∈ ty.components, σ'.root c' = σ'.root c

theorem Agreed.symm (h : Agreed L σ σ' s s' ty) : Agreed L σ σ' s' s ty :=
  ⟨h.mergeable.symm, h.cell', h.cell, h.alone', h.alone, fun c hc => h.covers c hc.symm⟩

/-- How two types are found unifiable, or not. -/
def Agrees (L : Generalized) (σ : Env) (s s' : TypeId) (o : Option Ty) (σ' : Env) : Prop :=
  Sound L σ' ∧ Within (Below σ s s') σ σ' ∧ ∀ ty, o = some ty → Agreed L σ σ' s s' ty

theorem Agrees.symm {o : Option Ty} (h : Agrees L σ s s' o σ') : Agrees L σ s' s o σ' :=
  ⟨h.1, h.2.1.mono fun _ _ hn => hn.imp_right Or.symm, fun ty hty => (h.2.2 ty hty).symm⟩

theorem Agrees.none (h : Sound L σ') (hw : Within (Below σ s s') σ σ') : Agrees L σ s s' none σ' := ⟨h, hw, nofun⟩

/-! ## An unknown and another type -/

/-- **An unknown of this time that is an equality type can become another type**: it is as late as any type,
or the other type is no later but for itself and does not refuse equality, or else it does not come to be
the other type at all. -/
def Timely (L : Generalized) (σ : Env) (τ : Time) (s n : TypeId) : Prop :=
  σ.clock ≤ τ ∨ σ.graph.Reach n s ∨ Bars σ n ∨ ¬ Refuses σ n ∧ Placed L σ τ (σ.getTy n)

theorem Fits.placed (hf : Fits L σ τ n) (h : σ.Wf) : Placed L σ τ (σ.getTy n) where
  lt := h.component_lt n
  proper := h.proper n
  generic g hg := ⟨h.made n g hg, fun b hb => hf.root.2 g b hg hb⟩
  fits _ hc := hf.component hc

theorem Fits.extends (hf : Fits L σ τ n) (he : Extends σ σ') (h : σ.Wf) (hn : n < σ.next) : Fits L σ' τ n := by
  intro m hr
  have hr' := (he.reach h hn).mp hr
  have hm := h.reach_lt hr' hn
  have ha := hf m hr'
  unfold Allowed at ha ⊢
  rw [he.getTy h hm]
  exact ⟨fun ho => (he.time m hm).trans (ha.1 ho), ha.2⟩

theorem Placed.extends (hp : Placed L σ τ ty) (he : Extends σ σ') (h : σ.Wf)
    (hmade : ∀ g, ty.generic = some g → g.Made σ') : Placed L σ' τ ty :=
  ⟨fun c hc => (hp.lt c hc).trans_le he.next, hp.proper, fun g hg => ⟨hmade g hg, (hp.generic g hg).2⟩,
    fun c hc => (hp.fits c hc).extends he h (hp.lt c hc)⟩

section OneUnknown

variable {u : Unknown}

/-- What becomes of an unknown, once the other type has been checked. -/
theorem checked_ends {o : Option TypeId} {x : Elaborates (Option Ty)}
    (hx : x = match o with
      | none => pure (some (σ.getTy n))
      | some t => do
        modify fun σ => σ.setTy s (σ.getTy t)
        pure none)
    (h : Sound L σ) (h' : Sound L σ') (he : Extends σ σ') (hs : s < σ.next) (hn : n < σ.next)
    (hne : σ.root s ≠ σ.root n) (hu : σ.getTy s = .unknown u) (hr : ¬ σ.graph.Reach n s)
    (htime : σ'.time s = τ) (hnone : o = none → Placed L σ' τ (σ'.getTy n))
    (hsome : ∀ t, o = some t → From σ.next σ' n t ∧ Placed L σ' τ (σ'.getTy t)) :
    x.Ends σ' (Agrees L σ s n) fun _ _ => True := by
  subst hx
  have hs' := hs.trans_le he.next
  have hu' : σ'.getTy s = .unknown u := (he.getTy h.toWf hs).trans hu
  have hr' : ¬ σ'.graph.Reach n s := fun hr' => hr ((he.reach h.toWf hn).mp hr')
  have hleaf : σ'.graph.components s = [] := by rw [components_graph, hu']; rfl
  cases o with
  | none =>
    have hgetTy := he.getTy h.toWf hn
    refine ⟨h', he.within h.toWf, fun ty hty => ?_⟩
    obtain rfl := Option.some.inj hty
    refine ⟨⟨hs', hn.trans_le he.next, fun hr'' => hne ?_, hr', fun ho => ?_, fun c hc => ?_, fun τ' hf => ?_⟩,
      by rw [he.cell h.toWf hs]; exact ⟨rfl, rfl⟩, by rw [he.cell h.toWf hn]; exact ⟨rfl, rfl⟩,
      fun m _ heq => by rwa [he.root] at heq, fun m _ heq => by rwa [he.root] at heq, fun c hc => ?_⟩
    · simpa only [graph_root, he.root] using hr''.root_eq hleaf
    · rw [hu', hgetTy]
      exact ⟨trivial, ho⟩
    · exact ⟨c, rfl, .inr (hgetTy ▸ hc)⟩
    · rw [← hgetTy]
      rcases hf with hf | hf
      · exact (hnone rfl).mono (htime ▸ hf.root.1 (hu' ▸ trivial))
      · exact hf.placed h'.toWf
    · rcases hc with hc | hc
      · rw [hu] at hc
        exact absurd hc List.not_mem_nil
      · exact ⟨c, hc, rfl⟩
  | some t =>
    obtain ⟨hfrom, hp⟩ := hsome t rfl
    have hnot : ∀ c ∈ (σ'.getTy t).components, ¬ σ'.graph.Reach c s :=
      fun c hc hr'' => hr' (hfrom s hs (.inside hc hr''))
    refine Agrees.none (h'.setTy hs' (htime.symm ▸ hp) hnot (hu' ▸ trivial)) ((he.within h.toWf).trans ?_)
    refine within_setTy (fun m heq => .inr (.inl (.here ?_))) (fun c hc => ?_) fun c hc => .inr fun m _ hr'' => ?_
    · rw [he.root] at heq
      exact heq.symm
    · rw [hu'] at hc
      exact absurd hc List.not_mem_nil
    · by_cases hm : m < σ.next
      · exact .inr (.inr ((he.reach h.toWf hn).mp (hfrom m hm (.inside hc hr''))))
      · exact .inl (not_lt.mp hm)

/-- **An unknown and another type**, where the unknown is timely if it is an equality type. -/
theorem oneUnknown_ends {k : ℕ} (h : Sound L σ) (hs : s < σ.next) (hn : n < σ.next) (hne : σ.root s ≠ σ.root n)
    (hu : σ.getTy s = .unknown u) (htimely : σ.equality s = .true → Timely L σ (σ.time s) s n) :
    (oneUnknown k u (σ.equality s) (σ.time s) s (σ.getTy n) n).Ends σ (Agrees L σ s n) fun _ _ => True := by
  have hopen : (σ.getTy s).Open := hu ▸ trivial
  simp only [oneUnknown, ends_bind]
  refine ((occurs_walks h.toWf hu).hom_ends (k := k) rfl hn).mono (fun b σ₁ => ?_) fun _ _ _ => trivial
  rintro ⟨rfl, -, hb⟩
  cases b with
  | true => exact Agrees.none h (.refl _)
  | false =>
    have hr := hb rfl
    simp only [Bool.false_eq_true, if_false]
    cases heq : σ₁.equality s with
    | true =>
      dsimp only
      rw [ends_bind]
      refine (checkEquality_ends h hn).mono (fun o σ' => ?_) fun _ _ _ => trivial
      rintro ⟨h', hk, hnone, hsome⟩
      have he := hk.toExtends
      have hclock : σ₁.clock ≤ σ₁.time s → ∀ m, Fits L σ' (σ₁.time s) m := fun hle =>
        h'.fits_clock (he.clock.trans_le hle)
      refine checked_ends rfl h h' he hs hn hne hu hr (hk.time_eq s hs) (fun ho => ?_) fun t ht => ?_
      · rcases htimely heq with hle | hr' | hbar | ⟨-, hp⟩
        · exact (hclock hle n).placed h'.toWf
        · exact absurd hr' hr
        · exact absurd hbar (hnone ho)
        · rw [he.getTy h.toWf hn]
          exact hp.extends he h.toWf fun g hg => h'.made n g (he.getTy h.toWf hn ▸ hg)
      · obtain ⟨-, hfrom, hrefuses, hbars⟩ := hsome t ht
        refine ⟨hfrom, ?_⟩
        rcases htimely heq with hle | hr' | hbar | ⟨hr', -⟩
        · exact (hclock hle t).placed h'.toWf
        · exact absurd hr' hr
        · obtain ⟨u', hu'⟩ := hbars hbar
          rw [hu']
          exact ⟨(by rintro _ ⟨⟩), trivial, (by rintro _ ⟨⟩), (by rintro _ ⟨⟩)⟩
        · exact absurd hrefuses hr'
    | _ =>
      dsimp only
      rw [ends_bind]
      refine (checkTime_ends h hn (h.open_le s hopen)).mono (fun o σ' => ?_) fun _ _ _ => trivial
      rintro ⟨h', ⟨he, htime⟩, hnone, hsome⟩
      refine checked_ends rfl h h' he hs hn hne hu hr (htime s hs le_rfl)
        (fun ho => (h'.placed n).mono (hnone ho)) fun t ht => ?_
      obtain ⟨-, hle, hfrom⟩ := hsome t ht
      exact ⟨hfrom, (h'.placed t).mono hle⟩

end OneUnknown

/-! ## The parts of two types -/

/-- **A unification that keeps the times sound**, and changes only what is inside its types. -/
def Unifies (L : Generalized) (unify : TypeId → TypeId → Elaborates UnifyResult) : Prop :=
  ∀ {σ : Env} {x y : TypeId}, Sound L σ → x < σ.next → y < σ.next → (unify x y).Ends σ (fun r σ' =>
    Sound L σ' ∧ Within (Below σ x y) σ σ' ∧ (r = .unified → σ'.root x = σ'.root y)) fun _ _ => True

/-- While parts are unified, what is inside of none of them stays as it is. -/
def Onward (S X : TypeId → Prop) (σ σ' : Env) : Prop :=
  Within S σ σ' ∧ ∀ z < σ.next, (∀ x, X x → ¬ σ'.graph.Reach x z) → Same σ σ' z

theorem Onward.refl (σ : Env) : Onward S X σ σ := ⟨.refl σ, fun _ _ _ => ⟨rfl, fun _ _ h => h⟩⟩

theorem Onward.trans (h : Onward S X σ σ') (h' : Onward S X σ' σ'') : Onward S X σ σ'' := by
  refine ⟨h.1.trans h'.1, fun z hz hX => (h.2 z hz fun x hx hr => ?_).trans (h'.2 z (hz.trans_le h.1.next) hX)
    h.1.next⟩
  exact hX x hx (hr.grows h'.1.grows)

section Parts

variable {unify : TypeId → TypeId → Elaborates UnifyResult} (hun : Unifies L unify) {σ₁ : Env}
  (hX : ∀ x, X x → x < σ₁.next ∧ Below σ₁ s s' x)

include hun hX

theorem call_ends {x y : TypeId} (h : Sound L σ) (hw : Within (Below σ₁ s s') σ₁ σ) (hx : X x) (hy : X y) :
    (unify x y).Ends σ (fun r σ' => Sound L σ' ∧ Onward (Below σ₁ s s') X σ σ' ∧
      (r = .unified → σ'.root x = σ'.root y)) fun _ _ => True := by
  obtain ⟨hxlt, hsx⟩ := hX x hx
  obtain ⟨hylt, hsy⟩ := hX y hy
  refine (hun h (hxlt.trans_le hw.next) (hylt.trans_le hw.next)).mono (fun r σ' => ?_) fun _ _ _ => trivial
  rintro ⟨h', hw', hroot⟩
  refine ⟨h', ⟨hw'.mono fun n _ hn => hw.below hxlt hylt hsx hsy hn, fun z hz hz' => hw'.same z hz ?_⟩, hroot⟩
  rintro (hge | hr | hr)
  · exact absurd hz (not_lt.mpr hge)
  · exact hz' x hx (hr.grows hw'.grows)
  · exact hz' y hy (hr.grows hw'.grows)

/-- Each type with its counterpart. -/
theorem unifys_ends {ts ts' : List TypeId} (h : Sound L σ₁) (hts : ∀ x ∈ ts, X x) (hts' : ∀ x ∈ ts', X x) :
    (unifys unify ts ts').Ends σ₁ (fun ok σ' => Sound L σ' ∧ Onward (Below σ₁ s s') X σ₁ σ' ∧
      (ok = true → ∀ p ∈ ts.zip ts', σ'.root p.1 = σ'.root p.2)) fun _ _ => True := by
  simp only [unifys, ends_bind, ends_pure]
  have heach := Ends.each (ε := Exn) (f := fun p => unify p.1 p.2) (l := ts.zip ts') (s := σ₁)
    (I := fun σ => Sound L σ ∧ Within (Below σ₁ s s') σ₁ σ) (P := fun (p : TypeId × TypeId) r σ => r = .unified → σ.root p.1 = σ.root p.2)
    (E := fun _ _ => True) (Onward.refl (S := Below σ₁ s s') (X := X)) (fun _ _ _ => Onward.trans)
    (fun p r σ σ' _ hroot hle hr => hle.1.grows.root (hroot hr)) ⟨h, .refl _⟩ fun p hp σ' => ?_
  · refine heach.mono (fun rs σ' => ?_) fun _ _ h => h
    rintro ⟨⟨h', -⟩, hon, hrs⟩
    refine ⟨h', hon, fun hok p hp => ?_⟩
    obtain ⟨i, hi, rfl⟩ := List.mem_iff_getElem.mp hp
    have hi' : i < rs.length := hrs.length_eq ▸ hi
    exact hrs.get hi hi' (by simpa using List.all_eq_true.mp hok _ (List.getElem_mem hi'))
  · rintro ⟨h', hw'⟩ _
    have hmem := List.of_mem_zip hp
    refine (call_ends hun hX h' hw' (hts _ hmem.1) (hts' _ hmem.2)).mono (fun r σ'' => ?_) fun _ _ _ => trivial
    rintro ⟨h'', hon, hroot⟩
    exact ⟨⟨h'', hw'.trans hon.1⟩, hon, hroot⟩

/-- The fields with what is found for them among other fields. -/
theorem subset_ends {fields fields' : List (Field × TypeId)} {skipBoth : Bool} (h : Sound L σ)
    (hw : Within (Below σ₁ s s') σ₁ σ) (hf : ∀ x ∈ fields, X x.2) (hf' : ∀ x ∈ fields', X x.2) :
    (subset unify fields fields' skipBoth).Ends σ (fun ok σ' => Sound L σ' ∧ Onward (Below σ₁ s s') X σ σ' ∧
      (ok = true → ∀ x ∈ fields, ∃ x' ∈ fields', x.1 = x'.1 ∧ (skipBoth = false → σ'.root x.2 = σ'.root x'.2)))
      fun _ _ => True := by
  simp only [subset, ends_bind, ends_pure]
  refine (Ends.each (I := fun σ => Sound L σ ∧ Within (Below σ₁ s s') σ₁ σ)
    (P := fun (x : Field × TypeId) ok σ => ok = true →
      ∃ x' ∈ fields', x.1 = x'.1 ∧ (skipBoth = false → σ.root x.2 = σ.root x'.2))
    (E := fun _ _ => True) (Onward.refl (S := Below σ₁ s s') (X := X)) (fun _ _ _ => Onward.trans)
    (fun x ok σ σ' _ hfound hle hok => ?_) ⟨h, hw⟩ (fun x hx σ' => ?_)).mono (fun oks σ' => ?_) fun _ _ h => h
  · obtain ⟨x', hx', hname, hroot⟩ := hfound hok
    exact ⟨x', hx', hname, fun hskip => hle.1.grows.root (hroot hskip)⟩
  · rintro ⟨h', hw'⟩ _
    cases hfind : fields'.find? fun x' => x.1 = x'.1 with
    | none => exact ⟨⟨h', hw'⟩, .refl σ', (by rintro ⟨⟩)⟩
    | some x' =>
      have hx' := List.mem_of_find?_eq_some hfind
      have hname : x.1 = x'.1 := by simpa using List.find?_some hfind
      cases skipBoth with
      | true => exact ⟨⟨h', hw'⟩, .refl σ', fun _ => ⟨x', hx', hname, (by rintro ⟨⟩)⟩⟩
      | false =>
        simp only [Bool.false_eq_true, if_false, ends_bind, ends_pure]
        refine (call_ends hun hX h' hw' (hf x hx) (hf' x' hx')).mono (fun r σ'' => ?_) fun _ _ _ => trivial
        rintro ⟨h'', hon, hroot⟩
        exact ⟨⟨h'', hw'.trans hon.1⟩, hon, fun hr => ⟨x', hx', hname, fun _ => hroot (of_decide_eq_true hr)⟩⟩
  · rintro ⟨⟨h', -⟩, hon, hoks⟩
    refine ⟨h', hon, fun hok x hx => ?_⟩
    obtain ⟨i, hi, rfl⟩ := List.mem_iff_getElem.mp hx
    have hi' : i < oks.length := hoks.length_eq ▸ hi
    exact hoks.get hi hi' (List.all_eq_true.mp hok _ (List.getElem_mem hi'))

end Parts

/-- The parts of two types are the same. -/
def Matches (σ : Env) (ts ts' : List TypeId) : Prop :=
  (∀ c ∈ ts, ∃ c' ∈ ts', σ.root c = σ.root c') ∧ ∀ c' ∈ ts', ∃ c ∈ ts, σ.root c = σ.root c'

section Parts

variable {unify : TypeId → TypeId → Elaborates UnifyResult} (hun : Unifies L unify)
  (hX : ∀ x, X x → x < σ.next ∧ Below σ s s' x)

include hun hX

theorem unifys_matches {ts ts' : List TypeId} (h : Sound L σ) (hts : ∀ x ∈ ts, X x) (hts' : ∀ x ∈ ts', X x)
    (hlen : ts.length = ts'.length) :
    (unifys unify ts ts').Ends σ (fun ok σ' => Sound L σ' ∧ Onward (Below σ s s') X σ σ' ∧
      (ok = true → Matches σ' ts ts')) fun _ _ => True := by
  refine (unifys_ends hun hX h hts hts').mono (fun ok σ' => ?_) fun _ _ _ => trivial
  rintro ⟨h', hon, hroots⟩
  have hzip : ∀ i (hi : i < ts.length) (hi' : i < ts'.length), (ts[i], ts'[i]) ∈ ts.zip ts' := fun i hi hi' =>
    List.mem_iff_getElem.mpr ⟨i, by simpa using ⟨hi, hi'⟩, List.getElem_zip⟩
  refine ⟨h', hon, fun hok => ⟨fun c hc => ?_, fun c' hc' => ?_⟩⟩
  · obtain ⟨i, hi, rfl⟩ := List.mem_iff_getElem.mp hc
    have hi' : i < ts'.length := hlen ▸ hi
    exact ⟨_, List.getElem_mem hi', hroots hok _ (hzip i hi hi')⟩
  · obtain ⟨i, hi', rfl⟩ := List.mem_iff_getElem.mp hc'
    have hi : i < ts.length := hlen ▸ hi'
    exact ⟨_, List.getElem_mem hi, hroots hok _ (hzip i hi hi')⟩

/-- **The fields of two records are the same** if the records are unifiable. -/
theorem unifyRecords_matches {fields fields' : List (Field × TypeId)} (h : Sound L σ) (hf : ∀ x ∈ fields, X x.2)
    (hf' : ∀ x ∈ fields', X x.2) (hnodup' : (fields'.map Prod.fst).Nodup) :
    (unifyRecords unify fields fields').Ends σ (fun ok σ' => Sound L σ' ∧ Onward (Below σ s s') X σ σ' ∧
      (ok = true → Matches σ' (fields.map Prod.snd) (fields'.map Prod.snd) ∧
        ∀ x ∈ fields, ∃ x' ∈ fields', x.1 = x'.1 ∧ σ'.root x.2 = σ'.root x'.2)) fun _ _ => True := by
  simp only [unifyRecords, ends_bind]
  refine (subset_ends hun hX h (.refl σ) hf hf').mono (fun ok σ₁ => ?_) fun _ _ _ => trivial
  rintro ⟨h₁, hon₁, hfound⟩
  refine (subset_ends hun hX h₁ hon₁.1 hf' hf).mono (fun ok' σ₂ => ?_) fun _ _ _ => trivial
  rintro ⟨h₂, hon₂, hfound'⟩
  refine ⟨h₂, hon₁.trans hon₂, fun hok => ?_⟩
  obtain ⟨rfl, rfl⟩ := Bool.and_eq_true_iff.mp hok
  have hroot : ∀ x ∈ fields, ∃ x' ∈ fields', x.1 = x'.1 ∧ σ₂.root x.2 = σ₂.root x'.2 := by
    intro x hx
    obtain ⟨x', hx', hname, heq⟩ := hfound rfl x hx
    exact ⟨x', hx', hname, hon₂.1.grows.root (heq rfl)⟩
  refine ⟨⟨fun c hc => ?_, fun c' hc' => ?_⟩, hroot⟩
  · obtain ⟨x, hx, rfl⟩ := List.mem_map.mp hc
    obtain ⟨x', hx', -, heq⟩ := hroot x hx
    exact ⟨x'.2, List.mem_map_of_mem hx', heq⟩
  · obtain ⟨x', hx', rfl⟩ := List.mem_map.mp hc'
    obtain ⟨x, hx, hname, -⟩ := hfound' rfl x' hx'
    -- a field has one name only, so its counterpart's counterpart is the field
    obtain ⟨x'', hx'', hname', heq⟩ := hroot x hx
    obtain rfl := List.inj_on_of_nodup_map hnodup' hx' hx'' (hname.trans hname')
    exact ⟨x.2, List.mem_map_of_mem hx, heq⟩

end Parts

/-- The parts of two types. -/
def Parts (σ : Env) (s s' x : TypeId) : Prop := x ∈ (σ.getTy s).components ∨ x ∈ (σ.getTy s').components

theorem Parts.lt {x : TypeId} (hx : Parts σ s s' x) (h : σ.Wf) : x < σ.next :=
  hx.elim (h.component_lt s x) (h.component_lt s' x)

theorem Parts.below {x : TypeId} (hx : Parts σ s s' x) : Below σ s s' x :=
  .inr (hx.imp (.inside · (.here rfl)) (.inside · (.here rfl)))

/-- **While their parts are unified, two types stay as they are**, for neither is inside of a part. -/
theorem Onward.same (hon : Onward S (Parts σ s s') σ σ') (h' : σ'.Wf) (hs : s < σ.next) (hs' : s' < σ.next)
    (hm : Matches σ' (σ.getTy s).components (σ.getTy s').components) : Same σ σ' s ∧ Same σ σ' s' := by
  have hnot : ∀ {s ts}, ts = (σ.getTy s).components → ∀ c ∈ ts, ¬ σ'.graph.Reach c s := by
    rintro s _ rfl c hc hr
    obtain ⟨c', hc', heq⟩ := hon.1.grows.component (n := s) hc
    exact h'.ranked.not_reach hc' (hr.congr_left heq.symm)
  refine ⟨hon.2 s hs fun x hx hr => ?_, hon.2 s' hs' fun x hx hr => ?_⟩
  · rcases hx with hx | hx
    · exact hnot rfl x hx hr
    · obtain ⟨c, hc, heq⟩ := hm.2 x hx
      exact hnot rfl c hc (hr.congr_left heq.symm)
  · rcases hx with hx | hx
    · obtain ⟨c, hc, heq⟩ := hm.1 x hx
      exact hnot rfl c hc (hr.congr_left heq)
    · exact hnot rfl x hx hr

/-- **Two types with the same parts can be put together.** -/
theorem Mergeable.of_matches (h : Sound L σ) (hs : s < σ.next) (hs' : s' < σ.next) (hne : σ.root s ≠ σ.root s')
    (hm : Matches σ (σ.getTy s).components (σ.getTy s').components)
    (hparts : ∀ c ∈ ty.components, Parts σ s s' c) (hproper : ty.Proper) (hgen : ty.generic = none)
    (hopen : ty.Open → (σ.getTy s).Open ∧ (σ.getTy s').Open) : Mergeable L σ s s' ty where
  lt := hs
  lt' := hs'
  apart hr := by
    cases hr with
    | here heq => exact hne heq
    | inside hc hr =>
      obtain ⟨c', hc', heq⟩ := hm.1 _ hc
      exact h.ranked.not_reach (g := σ.graph) hc' (hr.congr_left heq)
  apart' hr := by
    cases hr with
    | here heq => exact hne heq.symm
    | inside hc hr =>
      obtain ⟨c', hc', heq⟩ := hm.2 _ hc
      exact h.ranked.not_reach (g := σ.graph) hc' (hr.congr_left heq.symm)
  isOpen := hopen
  parts c hc := ⟨c, rfl, hparts c hc⟩
  placed τ hf := by
    refine ⟨fun c hc => (hparts c hc).lt h.toWf, hproper, fun g hg => (nomatch hgen.symm.trans hg), fun c hc => ?_⟩
    rcases hf with hf | hf <;> rcases hparts c hc with hc | hc
    · exact hf.component hc
    · obtain ⟨c', hc', heq⟩ := hm.2 c hc
      exact (hf.component hc').congr heq
    · obtain ⟨c', hc', heq⟩ := hm.1 c hc
      exact (hf.component hc').congr heq.symm
    · exact hf.component hc

end MLton.TypeEnv
