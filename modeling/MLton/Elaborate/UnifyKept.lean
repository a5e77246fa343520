import MLton.Elaborate.Unified

/-!
# Elaborate/UnifyKept — unification, over all kinds of types

A flexible record gets the fields it lacks, as unknowns of its own time, before its fields are unified with those
of another record.  Two types are put together once their parts have been (`unifyWith_ends`).
-/

namespace MLton.TypeEnv

open Raises TermGraph

variable {σ σ' σ'' σ₁ : Env} {L : Generalized} {n s s' t : TypeId} {ty : Ty} {τ : Time}

/-! ## Spines -/

/-- Only the spines are changed. -/
def SpinesOnly (σ σ' : Env) : Prop := ∃ spines spineRoot,
  σ' = { σ with spines := spines, spineRoot := spineRoot } ∧
    ((∀ s, (σ.spines s).fields.Nodup) → ∀ s, (spines s).fields.Nodup)

namespace SpinesOnly

theorem refl (σ : Env) : SpinesOnly σ σ := ⟨_, _, rfl, id⟩

theorem trans (h : SpinesOnly σ σ') (h' : SpinesOnly σ' σ'') : SpinesOnly σ σ'' := by
  obtain ⟨spines, spineRoot, rfl, hnodup⟩ := h
  obtain ⟨spines', spineRoot', rfl, hnodup'⟩ := h'
  exact ⟨spines', spineRoot', rfl, fun hs => hnodup' (hnodup hs)⟩

theorem sound (h : SpinesOnly σ σ') (hs : Sound L σ) : Sound L σ' := by
  obtain ⟨spines, spineRoot, rfl, hnodup⟩ := h
  exact hs.congr rfl rfl rfl rfl le_rfl le_rfl le_rfl (fun _ _ => rfl) (hnodup hs.spines)

theorem keeps (h : SpinesOnly σ σ') : Keeps σ σ' := by
  obtain ⟨spines, spineRoot, rfl, -⟩ := h
  exact ⟨⟨le_rfl, rfl, fun _ _ => rfl, fun _ _ => le_rfl, rfl, rfl, rfl⟩, fun _ _ => rfl⟩

theorem next (h : SpinesOnly σ σ') : σ'.next = σ.next := by
  obtain ⟨spines, spineRoot, rfl, -⟩ := h
  rfl

theorem setSpine {sp : Spine} {body : SpineBody}
    (hbody : (∀ s, (σ.spines s).fields.Nodup) → body.fields.Nodup) : SpinesOnly σ (σ.setSpine sp body) := by
  refine ⟨_, _, rfl, fun hs s => ?_⟩
  by_cases heq : s = σ.spineRoot sp
  · rw [heq, Function.update_self]
    exact hbody hs
  · rw [Function.update_of_ne heq]
    exact hs s

end SpinesOnly

namespace Spine

variable {sp sp' : Spine} {f : Field} {fs : List Field}

theorem ensureField_ends : (ensureField sp f).Ends σ (fun _ σ' => SpinesOnly σ σ') fun _ _ => True := by
  simp only [ensureField, ends_bind, ends_get]
  split_ifs with hf
  · exact .refl σ
  · exact SpinesOnly.setSpine fun hs => (hs _).cons hf
  · exact .refl σ

theorem ensureFields_ends :
    (each (ensureField sp ·) fs).Ends σ (fun _ σ' => SpinesOnly σ σ') fun _ _ => True := by
  refine (Ends.each (I := fun _ => True) (P := fun _ _ _ => True) SpinesOnly.refl (fun _ _ _ => SpinesOnly.trans)
    (fun _ _ _ _ _ _ _ => trivial) trivial fun f _ σ' _ _ => ?_).mono (fun _ _ h => h.2.1) fun _ _ h => h
  exact ensureField_ends.mono (fun _ _ h => ⟨trivial, h, trivial⟩) fun _ _ _ => trivial

theorem noMoreFields_ends : (noMoreFields sp).Ends σ (fun _ σ' => SpinesOnly σ σ') fun _ _ => True :=
  SpinesOnly.setSpine fun hs => hs _

/-- The fields of two spines have no field twice. -/
theorem nodup_foldl : ∀ (fs' fs : List Field), fs.Nodup →
    (fs'.foldl (fun l x => if x ∈ l then l else x :: l) fs).Nodup
  | [], _, h => h
  | x :: fs', fs, h => by
    rw [List.foldl_cons]
    refine nodup_foldl fs' _ ?_
    split_ifs with hx
    · exact h
    · exact h.cons hx

theorem unify_ends : (unify sp sp').Ends σ (fun _ σ' => SpinesOnly σ σ') fun _ _ => True := by
  refine ⟨_, _, rfl, fun hs s => ?_⟩
  by_cases heq : s = σ.spineRoot sp
  · rw [heq, Function.update_self]
    exact nodup_foldl _ _ (hs _)
  · rw [Function.update_of_ne heq]
    exact hs s

end Spine

/-! ## The fields a flexible record lacks -/

/-- Fields with new unknowns of a time among them. -/
structure Widened (base : TypeId) (τ : Time) (fields fields' : List (Field × TypeId)) (σ' : Env) : Prop where
  nodup : (fields'.map Prod.fst).Nodup
  subset : ∀ x ∈ fields, x ∈ fields'
  new : ∀ x ∈ fields', x ∈ fields ∨
    base ≤ x.2 ∧ x.2 < σ'.next ∧ (∃ u, σ'.getTy x.2 = .unknown u) ∧ σ'.time x.2 = τ

variable {fields fields' : List (Field × TypeId)} {sp sp' : Spine} {e : Equality}

theorem foldlM_ends : ∀ {fs : List Field} {fields : List (Field × TypeId)} {σ : Env}, Sound L σ → τ ≤ σ.clock →
    fs.Nodup → (fields.map Prod.fst).Nodup → (∀ f ∈ fs, f ∉ fields.map Prod.fst) →
    (fs.foldlM (fun fields f => do
      let u ← Typ.unknown true e τ
      pure ((f, u) :: fields)) fields : Elaborates (List (Field × TypeId))).Ends σ
      (fun fields' σ' => Sound L σ' ∧ Keeps σ σ' ∧ Widened σ.next τ fields fields' σ') fun _ _ => True
  | [], fields, σ, h, _, _, hnodup, _ => ⟨h, .refl σ, hnodup, fun _ hx => hx, fun _ hx => .inl hx⟩
  | f :: fs, fields, σ, h, hτ, hfs, hnodup, hdisj => by
    rw [List.foldlM_cons]
    simp only [ends_bind, ends_pure]
    refine (unknown_ends h hτ).mono (fun t σ₁ => ?_) fun _ _ _ => trivial
    rintro ⟨⟨u, hmade⟩, htime⟩
    have hclock : τ ≤ σ₁.clock := hmade.extends'.clock ▸ hτ
    have hf := hdisj f List.mem_cons_self
    obtain ⟨hf', hfs'⟩ := List.nodup_cons.mp hfs
    have hnodup' : (((f, t) :: fields).map Prod.fst).Nodup := hnodup.cons hf
    refine (foldlM_ends hmade.sound hclock hfs' hnodup' fun f' hmem => ?_).mono (fun fields' σ' => ?_)
      fun _ _ _ => trivial
    · rw [List.map_cons, List.mem_cons, not_or]
      exact ⟨fun heq => hf' ((show f' = f from heq) ▸ hmem), hdisj f' (List.mem_cons_of_mem _ hmem)⟩
    · rintro ⟨h', hk, hw⟩
      refine ⟨h', .trans ⟨hmade.extends', hmade.time⟩ hk, hw.nodup, fun x hx => hw.subset x (List.mem_cons_of_mem _ hx),
        fun x hx => ?_⟩
      rcases hw.new x hx with hx | ⟨hge, hlt, hu, hτ'⟩
      · rcases List.mem_cons.mp hx with rfl | hx
        · refine .inr ⟨hmade.eq.ge, hmade.lt.trans_le hk.next, ⟨u, ?_⟩, ?_⟩
          · exact (hk.toExtends.getTy hmade.sound.toWf hmade.lt).trans hmade.getTy
          · exact (hk.time_eq _ hmade.lt).trans htime
        · exact .inl hx
      · exact .inr ⟨hmade.extends'.next.trans hge, hlt, hu, hτ'⟩

theorem newFields_ends (h : Sound L σ) (hτ : τ ≤ σ.clock) (hnodup : (fields.map Prod.fst).Nodup) :
    (newFields fields sp e τ).Ends σ (fun fields' σ' => Sound L σ' ∧ Keeps σ σ' ∧ Widened σ.next τ fields fields' σ')
      fun _ _ => True := by
  simp only [newFields, Spine.foldOverNew, ends_bind, ends_get]
  refine foldlM_ends h hτ ((h.spines _).filter _) hnodup fun f hf => ?_
  simpa using (List.mem_filter.mp hf).2

/-- A type, and what is not there yet. -/
def At (σ : Env) (s n : TypeId) : Prop := σ.next ≤ n ∨ σ.root n = σ.root s

/-- **A flexible record has been given the fields it lacks**, and is another type now. -/
structure Filled (L : Generalized) (σ : Env) (s : TypeId) (fields : List (Field × TypeId)) (ty : Ty)
    (fields' : List (Field × TypeId)) (σ' : Env) : Prop where
  sound : Sound L σ'
  within : Within (At σ s) σ σ'
  root : σ'.root = σ.root
  time : ∀ n < σ.next, σ'.time n = σ.time n
  cell : (σ'.cell s).time = (σ.cell s).time ∧ (σ'.cell s).equality = (σ.cell s).equality
  getTy : σ'.getTy s = ty
  components : ty.components = fields'.map Prod.snd
  nodup : (fields'.map Prod.fst).Nodup
  subset : ∀ c ∈ fields.map Prod.snd, c ∈ fields'.map Prod.snd

theorem Widened.filled {fields'' : List (Field × TypeId)} (hw : Widened σ.next (σ.time s) fields fields' σ₁)
    (h : Sound L σ) (hs : s < σ.next) (hty : σ.getTy s = .flexRecord fields sp) (h₁ : Sound L σ₁)
    (hk : Keeps σ σ₁) (hcomponents : ty.components = fields''.map Prod.snd)
    (hmem : ∀ c, c ∈ fields''.map Prod.snd ↔ c ∈ fields'.map Prod.snd) (hproper : ty.Proper)
    (hgen : ty.generic = none) (hnodup : (fields''.map Prod.fst).Nodup) :
    Filled L σ s fields ty fields'' (σ₁.setTy s ty) := by
  have hs₁ := hs.trans_le hk.next
  have hty₁ : σ₁.getTy s = .flexRecord fields sp := (hk.toExtends.getTy h.toWf hs).trans hty
  have hsubset : ∀ c ∈ fields.map Prod.snd, c ∈ fields''.map Prod.snd := by
    intro c hc
    obtain ⟨x, hx, rfl⟩ := List.mem_map.mp hc
    exact (hmem _).mpr (List.mem_map_of_mem (hw.subset x hx))
  have hparts : ∀ c ∈ ty.components, c ∈ (σ₁.getTy s).components ∨ σ.next ≤ c ∧ c < σ₁.next ∧
      (∃ u, σ₁.getTy c = .unknown u) ∧ σ₁.time c = σ.time s := by
    intro c hc
    obtain ⟨x, hx, rfl⟩ := List.mem_map.mp ((hmem c).mp (hcomponents ▸ hc))
    rw [hty₁]
    exact (hw.new x hx).imp_left (List.mem_map_of_mem ·)
  -- a new unknown is in a set of its own
  have hnew : ∀ {c m}, σ.next ≤ c → (∃ u, σ₁.getTy c = .unknown u) → σ₁.graph.Reach c m → σ.next ≤ m := by
    rintro c m hge ⟨u, hu⟩ hr
    have heq : σ.root c = σ.root m := by
      rw [← hk.root]
      exact hr.root_eq (by rw [components_graph, hu]; rfl)
    rw [h.root_fresh c hge] at heq
    exact not_lt.mp fun hm => absurd (h.root_lt m hm) (not_lt.mpr (heq ▸ hge))
  have hp : Placed L σ₁ (σ₁.time s) ty := by
    refine ⟨fun c hc => ?_, hproper, fun g hg => (nomatch hgen.symm.trans hg), fun c hc => ?_⟩
    · rcases hparts c hc with hc | ⟨-, hlt, -⟩
      · exact h₁.component_lt s c hc
      · exact hlt
    · rcases hparts c hc with hc | ⟨-, -, ⟨u, hu⟩, hτ⟩
      · exact (h₁.fits s).component hc
      · rw [hk.time_eq s hs]
        refine .intro ⟨fun _ => hτ.le, fun g b hg => ?_⟩ fun c' hc' => ?_
        · rw [hu] at hg
          exact nomatch hg
        · rw [hu] at hc'
          exact absurd hc' List.not_mem_nil
  refine ⟨h₁.setTy hs₁ hp (fun c hc hr => ?_) (hty₁ ▸ trivial),
    (hk.toExtends.within h.toWf).trans (within_setTy (fun n heq => ?_) (fun c hc => ?_) fun c hc => ?_), hk.root,
    fun n hn => time_setTy.trans (hk.time_eq n hn), ?_, ?_, hcomponents, hnodup, hsubset⟩
  · rcases hparts c hc with hc | ⟨hge, -, hu, -⟩
    · exact h₁.ranked.not_reach (g := σ₁.graph) hc hr
    · exact absurd hs (not_lt.mpr (hnew hge hu hr))
  · rw [hk.root] at heq
    exact .inr heq
  · rw [hty₁] at hc
    exact hcomponents ▸ hsubset c hc
  · rcases hparts c hc with hc | ⟨hge, -, hu, -⟩
    · exact .inl hc
    · exact .inr fun m _ hr => .inl (hnew hge hu hr)
  · have hcell : (σ₁.setTy s ty).cell s = { σ₁.cell s with ty := ty } := Function.update_self ..
    rw [hcell, hk.toExtends.cell h.toWf hs]
    exact ⟨rfl, rfl⟩
  · rw [getTy_setTy, if_pos rfl]

/-- **A flexible record has the fields of another one**, and its own. -/
theorem flexToFlexToRecord_ends (h : Sound L σ) (hs : s < σ.next) (hty : σ.getTy s = .flexRecord fields sp) :
    (flexToFlexToRecord fields sp e (σ.time s) s sp').Ends σ (fun fields' σ' =>
      Filled L σ s fields (.flexRecord fields' sp) fields' σ' ∧ ∀ x ∈ fields, x ∈ fields') fun _ _ => True := by
  simp only [flexToFlexToRecord, ends_bind, ends_get]
  refine Spine.ensureFields_ends.mono (fun _ σ₁ hsp => ?_) fun _ _ _ => trivial
  have hτ : σ.time s ≤ σ₁.clock := hsp.keeps.clock ▸ h.open_le s (hty ▸ trivial)
  have hnodup : (Ty.flexRecord fields sp).Proper := hty ▸ h.proper s
  refine (newFields_ends (hsp.sound h) hτ hnodup).mono (fun fields' σ₂ => ?_) fun _ _ _ => trivial
  rintro ⟨h₂, hk, hw⟩
  rw [hsp.next] at hw
  exact ⟨hw.filled h hs hty h₂ (hsp.keeps.trans hk) rfl (fun _ => Iff.rfl) hw.nodup rfl hw.nodup, hw.subset⟩

/-- **A flexible record has become a record**. -/
theorem flexToRigidToRecord_ends {r' : Srecord TypeId} (h : Sound L σ) (hs : s < σ.next)
    (hty : σ.getTy s = .flexRecord fields sp) :
    (flexToRigidToRecord fields sp e (σ.time s) s r').Ends σ (fun fields' σ' =>
      ∃ r : Srecord TypeId, Filled L σ s fields (.record r) fields' σ') fun _ _ => True := by
  simp only [flexToRigidToRecord, ends_bind]
  refine Spine.ensureFields_ends.mono (fun _ σ₁ hsp => ?_) fun _ _ _ => trivial
  refine Spine.noMoreFields_ends.mono (fun _ σ₂ hsp' => ?_) fun _ _ _ => trivial
  replace hsp := hsp.trans hsp'
  have hτ : σ.time s ≤ σ₂.clock := hsp.keeps.clock ▸ h.open_le s (hty ▸ trivial)
  have hnodup : (Ty.flexRecord fields sp).Proper := hty ▸ h.proper s
  refine (newFields_ends (hsp.sound h) hτ hnodup).mono (fun fields' σ₃ => ?_) fun _ _ _ => trivial
  rintro ⟨h₃, hk, hw⟩
  rw [hsp.next] at hw
  have hproper := proper_fromVector hw.nodup
  refine ⟨_, hw.filled h hs hty h₃ (hsp.keeps.trans hk) (Srecord.map_snd_toVector _).symm (fun c => ?_) hproper rfl
    hproper.1⟩
  rw [Srecord.map_snd_toVector]
  exact Srecord.mem_range_fromVector

/-! ## Two types with parts -/

/-- The two types are ready for their parts to be unified. -/
structure Prepared (L : Generalized) (σ : Env) (s s' : TypeId) (σ₁ : Env) : Prop where
  sound : Sound L σ₁
  within : Within (Below σ s s') σ σ₁
  root : σ₁.root = σ.root
  cell : (σ₁.cell s).time = (σ.cell s).time ∧ (σ₁.cell s).equality = (σ.cell s).equality
  cell' : (σ₁.cell s').time = (σ.cell s').time ∧ (σ₁.cell s').equality = (σ.cell s').equality

theorem Prepared.refl (h : Sound L σ) : Prepared L σ s s' σ := ⟨h, .refl σ, rfl, ⟨rfl, rfl⟩, ⟨rfl, rfl⟩⟩

theorem Filled.prepared {fields' : List (Field × TypeId)} (hf : Filled L σ s fields ty fields' σ₁)
    (hs' : s' < σ.next) (hne : σ.root s ≠ σ.root s') : Prepared L σ s s' σ₁ := by
  have hcell' := (hf.within.same s' hs' fun hat => hat.elim (not_le.mpr hs') (hne ·.symm)).1
  refine ⟨hf.sound, hf.within.mono fun n _ hat => hat.imp_right fun heq => .inl (.here heq.symm), hf.root, hf.cell, ?_⟩
  rw [hcell']
  exact ⟨rfl, rfl⟩

theorem Prepared.symm (hp : Prepared L σ s s' σ₁) : Prepared L σ s' s σ₁ :=
  ⟨hp.sound, hp.within.mono fun _ _ hn => hn.imp_right Or.symm, hp.root, hp.cell', hp.cell⟩

theorem Prepared.trans {σ₂ : Env} (hp : Prepared L σ s s' σ₁) (hp' : Prepared L σ₁ s s' σ₂) (hs : s < σ.next)
    (hs' : s' < σ.next) : Prepared L σ s s' σ₂ :=
  ⟨hp'.sound, hp.within.trans (hp'.within.mono fun _ _ hn => hp.within.below hs hs' (.inr (.inl (.here rfl)))
    (.inr (.inr (.here rfl))) hn), hp'.root.trans hp.root, ⟨hp'.cell.1.trans hp.cell.1, hp'.cell.2.trans hp.cell.2⟩,
    ⟨hp'.cell'.1.trans hp.cell'.1, hp'.cell'.2.trans hp.cell'.2⟩⟩

theorem SpinesOnly.onward {S X : TypeId → Prop} (h : SpinesOnly σ σ') (hwf : σ.Wf) : Onward S X σ σ' :=
  ⟨h.keeps.within hwf, fun _ hz _ => ⟨h.keeps.cell hwf hz, fun _ _ heq => by rwa [h.keeps.root] at heq⟩⟩

theorem Matches.congr {ts ts' : List TypeId} (h : Matches σ ts ts') (hroot : σ'.root = σ.root) :
    Matches σ' ts ts' := by rwa [Matches, hroot]

/-- All parts are among those of one of the types. -/
theorem Matches.covers (hm : Matches σ' (σ.getTy s).components (σ.getTy s').components)
    (hty : ty.components = (σ.getTy s).components ∨ ty.components = (σ.getTy s').components) {c : TypeId}
    (hc : Parts σ s s' c) : ∃ c' ∈ ty.components, σ'.root c' = σ'.root c := by
  rcases hty with hty | hty <;> rcases hc with hc | hc <;> rw [hty]
  · exact ⟨c, hc, rfl⟩
  · exact hm.2 c hc
  · obtain ⟨c', hc', heq⟩ := hm.1 c hc
    exact ⟨c', hc', heq.symm⟩
  · exact ⟨c, hc, rfl⟩

section Parts

variable (hp : Prepared L σ s s' σ₁) (hs : s < σ.next) (hs' : s' < σ.next)
  (hon : Onward (Below σ₁ s s') (Parts σ₁ s s') σ₁ σ')

include hp hs hs' hon

theorem Prepared.within_onward : Within (Below σ s s') σ σ' :=
  hp.within.trans (hon.1.mono fun _ _ hn => hp.within.below hs hs' (.inr (.inl (.here rfl)))
    (.inr (.inr (.here rfl))) hn)

/-- **Two types with the same parts have a type in common.** -/
theorem Prepared.agreed (hne : σ.root s ≠ σ.root s') (h' : Sound L σ')
    (hm : Matches σ' (σ₁.getTy s).components (σ₁.getTy s').components)
    (hparts : ∀ c ∈ ty.components, Parts σ₁ s s' c)
    (hcov : ∀ c, Parts σ s s' c → ∃ c' ∈ ty.components, σ'.root c' = σ'.root c)
    (hproper : ty.Proper) (hgen : ty.generic = none)
    (hopen : ty.Open → (σ₁.getTy s).Open ∧ (σ₁.getTy s').Open) : Agreed L σ σ' s s' ty := by
  have hlt := hs.trans_le hp.within.next
  have hlt' := hs'.trans_le hp.within.next
  obtain ⟨hsame, hsame'⟩ := hon.same h'.toWf hlt hlt' hm
  have hty : σ'.getTy s = σ₁.getTy s := congrArg Cell.ty hsame.1
  have hty' : σ'.getTy s' = σ₁.getTy s' := congrArg Cell.ty hsame'.1
  have halone : ∀ n < σ.next, ∀ m, m < σ₁.next → Same σ₁ σ' m → σ'.root n = σ'.root m → σ.root n = σ.root m :=
    fun n hn m _ hsame heq => hp.root ▸ hsame.2 n (hn.trans_le hp.within.next) heq
  refine ⟨.of_matches h' (hlt.trans_le hon.1.next) (hlt'.trans_le hon.1.next) (fun heq => hne ?_) ?_ ?_ hproper hgen ?_,
    ?_, ?_, fun n hn => halone n hn s hlt hsame, fun n hn => halone n hn s' hlt' hsame', hcov⟩
  · exact halone s hs s' hlt' hsame' heq
  · rwa [hty, hty']
  · simpa only [Parts, hty, hty'] using hparts
  · rwa [hty, hty']
  · rw [hsame.1]
    exact hp.cell
  · rw [hsame'.1]
    exact hp.cell'

end Parts

/-- Two types without parts. -/
theorem Agrees.leaf (h : Sound L σ) (h' : Sound L σ') (he : Extends σ σ') (hs : s < σ.next) (hs' : s' < σ.next)
    (hne : σ.root s ≠ σ.root s') (hnil : (σ.getTy s).components = []) (hnil' : (σ.getTy s').components = [])
    (hty : ty.components = []) (hproper : ty.Proper)
    (hgen : ∀ g, ty.generic = some g → (σ.getTy s).generic = some g ∧ (σ.getTy s').generic = some g)
    (hopen : ty.Open → (σ.getTy s).Open ∧ (σ.getTy s').Open) : Agrees L σ s s' (some ty) σ' := by
  have hnil₁ : ∀ {n}, n < σ.next → (σ.getTy n).components = [] → σ'.graph.components n = [] := fun hn hnil => by
    rw [components_graph, he.getTy h.toWf hn, hnil]
  have hroot : ∀ {n m}, σ'.root n = σ'.root m → σ.root n = σ.root m := fun heq => by rwa [he.root] at heq
  refine ⟨h', he.within h.toWf, fun ty' hty' => ?_⟩
  obtain rfl := Option.some.inj hty'
  refine ⟨⟨hs.trans_le he.next, hs'.trans_le he.next, fun hr => hne (hroot (hr.root_eq (hnil₁ hs hnil))),
    fun hr => hne (hroot (hr.root_eq (hnil₁ hs' hnil'))).symm, ?_, fun c hc => absurd (hty ▸ hc) List.not_mem_nil,
      fun τ hf => ⟨fun c hc => absurd (hty ▸ hc) List.not_mem_nil, hproper, fun g hg => ?_,
        fun c hc => absurd (hty ▸ hc) List.not_mem_nil⟩⟩,
    ?_, ?_, fun _ _ => hroot, fun _ _ => hroot, fun c hc => ?_⟩
  · rwa [he.getTy h.toWf hs, he.getTy h.toWf hs']
  · obtain ⟨hg, hg'⟩ := hgen g hg
    rw [← he.getTy h.toWf hs] at hg
    rw [← he.getTy h.toWf hs'] at hg'
    exact ⟨h'.made s g hg, fun b hb => hf.elim (·.root.2 g b hg hb) (·.root.2 g b hg' hb)⟩
  · rw [he.cell h.toWf hs]
    exact ⟨rfl, rfl⟩
  · rw [he.cell h.toWf hs']
    exact ⟨rfl, rfl⟩
  · rw [hnil, hnil'] at hc
    exact absurd hc (by simp)

/-- The fields of two records, without those of certain names in one of them. -/
theorem joined_fields (ns : List Field) : ∀ (fields ac : List (Field × TypeId)), (ac.map Prod.fst).Nodup →
    (fields.map Prod.fst).Nodup → (∀ x ∈ fields, x.1 ∈ ac.map Prod.fst → x.1 ∈ ns) →
    ((fields.foldl (fun ac x => if x.1 ∈ ns then ac else x :: ac) ac).map Prod.fst).Nodup ∧
      ∀ x, x ∈ fields.foldl (fun ac x => if x.1 ∈ ns then ac else x :: ac) ac ↔ x ∈ ac ∨ x ∈ fields ∧ x.1 ∉ ns
  | [], ac, hac, _, _ => ⟨hac, fun x => by simp⟩
  | x :: fields, ac, hac, hfields, hns => by
    obtain ⟨hx, hfields'⟩ := List.nodup_cons.mp hfields
    rw [List.foldl_cons]
    split_ifs with hmem
    · obtain ⟨hnodup, hiff⟩ := joined_fields ns fields ac hac hfields' fun y hy => hns y (List.mem_cons_of_mem _ hy)
      refine ⟨hnodup, fun y => (hiff y).trans (or_congr_right ⟨fun hy => ⟨List.mem_cons_of_mem _ hy.1, hy.2⟩, ?_⟩)⟩
      rintro ⟨hy, hy'⟩
      rcases List.mem_cons.mp hy with rfl | hy
      · exact absurd hmem hy'
      · exact ⟨hy, hy'⟩
    · have hnew : ((x :: ac).map Prod.fst).Nodup := hac.cons fun hx' => hmem (hns x List.mem_cons_self hx')
      obtain ⟨hnodup, hiff⟩ := joined_fields ns fields (x :: ac) hnew hfields' fun y hy hy' => by
        rcases List.mem_cons.mp hy' with heq | hy'
        · exact absurd (List.mem_map_of_mem hy) (heq ▸ hx)
        · exact hns y (List.mem_cons_of_mem _ hy) hy'
      refine ⟨hnodup, fun y => (hiff y).trans ?_⟩
      simp only [List.mem_cons]
      constructor
      · rintro ((rfl | hy) | hy)
        · exact .inr ⟨.inl rfl, hmem⟩
        · exact .inl hy
        · exact .inr ⟨.inr hy.1, hy.2⟩
      · rintro (hy | ⟨rfl | hy, hy'⟩)
        · exact .inl (.inr hy)
        · exact .inl (.inl rfl)
        · exact .inr ⟨hy, hy'⟩

section Types

variable {unify : TypeId → TypeId → Elaborates UnifyResult} (hun : Unifies L unify) (h : Sound L σ)
  (hs : s < σ.next) (hs' : s' < σ.next) (hne : σ.root s ≠ σ.root s')

include hun h hs hs' hne

omit hun h in
/-- Two types of which one is what they have in common, if their parts are unifiable. -/
theorem parts_ends {x : Elaborates Bool} (hp : Prepared L σ s s' σ₁)
    (hx : x.Ends σ₁ (fun ok σ' => Sound L σ' ∧ Onward (Below σ₁ s s') (Parts σ₁ s s') σ₁ σ' ∧
      (ok = true → Matches σ' (σ₁.getTy s).components (σ₁.getTy s').components)) fun _ _ => True)
    (hkept : ∀ c, Parts σ s s' c → Parts σ₁ s s' c)
    (hty : ty.components = (σ₁.getTy s).components ∨ ty.components = (σ₁.getTy s').components)
    (hproper : ty.Proper) (hgen : ty.generic = none) (hclosed : ¬ ty.Open) :
    (do if ← x then pure (some ty) else pure none : Elaborates (Option Ty)).Ends σ₁ (Agrees L σ s s')
      fun _ _ => True := by
  rw [ends_bind]
  refine hx.mono (fun ok σ' => ?_) fun _ _ _ => trivial
  rintro ⟨h', hon, hm⟩
  have hw := hp.within_onward hs hs' hon
  cases ok with
  | false => exact .none h' hw
  | true =>
    refine ⟨h', hw, fun ty' hty' => ?_⟩
    obtain rfl := Option.some.inj hty'
    refine hp.agreed hs hs' hon hne h' (hm rfl) (fun c hc => ?_) (fun c hc => (hm rfl).covers hty (hkept c hc))
      hproper hgen fun ho => absurd ho hclosed
    rcases hty with hty | hty
    · exact .inl (hty ▸ hc)
    · exact .inr (hty ▸ hc)

theorem conAnd_ends {c : Tycon} {ts : List TypeId} (hty : σ.getTy s = .con c ts) :
    (conAnd unify c ts (.con c ts) (σ.getTy s')).Ends σ (Agrees L σ s s') fun _ _ => True := by
  have hnone : (pure none : Elaborates (Option Ty)).Ends σ (Agrees L σ s s') fun _ _ => True :=
    .none h (.refl σ)
  have hproper : (Ty.con c ts).Proper := hty ▸ h.proper s
  unfold conAnd
  cases hty' : σ.getTy s' with
  | con c' ts' =>
    dsimp only
    split_ifs with hc hlen
    · exact hnone
    · have hX := fun x (hx : Parts σ s s' x) => And.intro (hx.lt h.toWf) hx.below
      have hends := unifys_matches hun hX h (fun x (hx : x ∈ ts) => .inl (by rwa [hty]))
        (fun x (hx : x ∈ ts') => .inr (by rwa [hty'])) (not_not.mp hlen)
      refine parts_ends hs hs' hne (.refl h) (hends.mono (fun ok σ' hok => ?_) fun _ _ _ => trivial)
        (fun _ hc => hc) (.inr (by rw [hty'])) (hty' ▸ h.proper s') rfl id
      rwa [hty, hty']
    · exact hnone
  | overload ov =>
    simp only [ends_bind, ends_get]
    split_ifs with hov
    · have hts : ts = [] := List.isEmpty_iff.mp (Bool.and_eq_true_iff.mp hov).1
      exact .leaf h h (.refl σ) hs hs' hne (by rw [hty, hts]; rfl) (by rw [hty']; rfl) hts hproper (by rintro _ ⟨⟩) (by rintro ⟨⟩)
    · exact hnone
  | _ => exact hnone

theorem oneFlex_ends {r' : Srecord TypeId} (hty : σ.getTy s = .flexRecord fields sp)
    (hty' : σ.getTy s' = .record r') :
    (oneFlex unify fields sp e (σ.time s) s r').Ends σ (Agrees L σ s s') fun _ _ => True := by
  rw [oneFlex, ends_bind]
  refine (flexToRigidToRecord_ends h hs hty).mono (fun fields' σ₁ => ?_) fun _ _ _ => trivial
  rintro ⟨r, hf⟩
  have hp := hf.prepared hs' hne
  have hcell' := (hf.within.same s' hs' fun hat => hat.elim (not_le.mpr hs') (hne ·.symm)).1
  have hty₁' : σ₁.getTy s' = .record r' := (congrArg Cell.ty hcell').trans hty'
  have hX := fun x (hx : Parts σ₁ s s' x) => And.intro (hx.lt hf.sound.toWf) hx.below
  have hcomp : (σ₁.getTy s).components = fields'.map Prod.snd := hf.getTy ▸ hf.components
  have hcomp' : (σ₁.getTy s').components = r'.toVector.map Prod.snd := by
    rw [hty₁', Srecord.map_snd_toVector]
    rfl
  have hproper' : (Ty.record r').Proper := hty' ▸ h.proper s'
  have hends := unifyRecords_matches hun hX hf.sound (fun x hx => .inl (hcomp ▸ List.mem_map_of_mem hx))
    (fun x hx => .inr (hcomp' ▸ List.mem_map_of_mem hx)) hproper'.1
  refine parts_ends hs hs' hne hp (hends.mono (fun ok σ' hok => ?_) fun _ _ _ => trivial) (fun c hc => ?_)
    (.inr (by rw [hty₁'])) hproper' rfl id
  · rw [hcomp, hcomp']
    exact ⟨hok.1, hok.2.1, fun ht => (hok.2.2 ht).1⟩
  · rcases hc with hc | hc
    · rw [hty] at hc
      exact .inl (hcomp ▸ hf.subset c hc)
    · exact .inr (by rwa [hty₁', ← hty'])

theorem records_ends {r r' : Srecord TypeId} (hty : σ.getTy s = .record r) (hty' : σ.getTy s' = .record r') :
    (do if ← unifyRecords unify r.toVector r'.toVector then pure (some (.record r)) else pure none :
      Elaborates (Option Ty)).Ends σ (Agrees L σ s s') fun _ _ => True := by
  have hX := fun x (hx : Parts σ s s' x) => And.intro (hx.lt h.toWf) hx.below
  have hcomp : (σ.getTy s).components = r.toVector.map Prod.snd := by
    rw [hty, Srecord.map_snd_toVector]
    rfl
  have hcomp' : (σ.getTy s').components = r'.toVector.map Prod.snd := by
    rw [hty', Srecord.map_snd_toVector]
    rfl
  have hproper' : (Ty.record r').Proper := hty' ▸ h.proper s'
  have hends := unifyRecords_matches hun hX h (fun x hx => .inl (hcomp ▸ List.mem_map_of_mem hx))
    (fun x hx => .inr (hcomp' ▸ List.mem_map_of_mem hx)) hproper'.1
  refine parts_ends hs hs' hne (.refl h) (hends.mono (fun ok σ' hok => ?_) fun _ _ _ => trivial)
    (fun _ hc => hc) (.inl (by rw [hty])) (hty ▸ h.proper s) rfl id
  rw [hcomp, hcomp']
  exact ⟨hok.1, hok.2.1, fun ht => (hok.2.2 ht).1⟩

theorem tuples_ends {ts ts' : List TypeId} (hty : σ.getTy s = .record (.tuple ts))
    (hty' : σ.getTy s' = .record (.tuple ts')) (hlen : ts.length = ts'.length) :
    (do if ← unifys unify ts ts' then pure (some (.record (.tuple ts))) else pure none :
      Elaborates (Option Ty)).Ends σ (Agrees L σ s s') fun _ _ => True := by
  have hX := fun x (hx : Parts σ s s' x) => And.intro (hx.lt h.toWf) hx.below
  have hends := unifys_matches hun hX h (fun x (hx : x ∈ ts) => .inl (by rwa [hty]))
    (fun x (hx : x ∈ ts') => .inr (by rwa [hty'])) hlen
  refine parts_ends hs hs' hne (.refl h) (hends.mono (fun ok σ' hok => ?_) fun _ _ _ => trivial)
    (fun _ hc => hc) (.inl (by rw [hty])) (hty ▸ h.proper s) rfl id
  rwa [hty, hty']

/-- **Two flexible records** are given each other's fields. -/
theorem flexes_ends (hty : σ.getTy s = .flexRecord fields sp) (hty' : σ.getTy s' = .flexRecord fields' sp') :
    (do
      let fs ← flexToFlexToRecord fields sp (σ.equality s) (σ.time s) s sp'
      let fs' ← flexToFlexToRecord fields' sp' (σ.equality s') (σ.time s') s' sp
      if ← unifyRecords unify fs fs' then
        Spine.unify sp sp'
        pure (some (.flexRecord
          (fields.foldl (fun ac x => if x.1 ∈ fields'.map Prod.fst then ac else x :: ac) fields') sp))
      else pure none : Elaborates (Option Ty)).Ends σ (Agrees L σ s s') fun _ _ => True := by
  rw [ends_bind]
  refine (flexToFlexToRecord_ends h hs hty).mono (fun fs σ₁ => ?_) fun _ _ _ => trivial
  rintro ⟨hf, hsub⟩
  have hlt := hs.trans_le hf.within.next
  have hlt' := hs'.trans_le hf.within.next
  have hne₁ : σ₁.root s' ≠ σ₁.root s := by rw [hf.root]; exact hne.symm
  have hcell' := (hf.within.same s' hs' fun hat => hat.elim (not_le.mpr hs') (hne ·.symm)).1
  have hty₁' : σ₁.getTy s' = .flexRecord fields' sp' := (congrArg Cell.ty hcell').trans hty'
  rw [← hf.time s' hs', ends_bind]
  refine (flexToFlexToRecord_ends hf.sound hlt' hty₁').mono (fun fs' σ₂ => ?_) fun _ _ _ => trivial
  rintro ⟨hf', hsub'⟩
  have hp : Prepared L σ s s' σ₂ := (hf.prepared hs' hne).trans (hf'.prepared hlt hne₁).symm hs hs'
  have hcell := (hf'.within.same s hlt fun hat => hat.elim (not_le.mpr hlt) (hne₁ ·.symm)).1
  have hty₂ : σ₂.getTy s = .flexRecord fs sp := (congrArg Cell.ty hcell).trans hf.getTy
  have hcomp : (σ₂.getTy s).components = fs.map Prod.snd := by rw [hty₂]; rfl
  have hcomp' : (σ₂.getTy s').components = fs'.map Prod.snd := by rw [hf'.getTy]; rfl
  have hX := fun x (hx : Parts σ₂ s s' x) => And.intro (hx.lt hf'.sound.toWf) hx.below
  rw [ends_bind]
  refine (unifyRecords_matches hun hX hf'.sound (fun x hx => .inl (hcomp ▸ List.mem_map_of_mem hx))
    (fun x hx => .inr (hcomp' ▸ List.mem_map_of_mem hx)) hf'.nodup).mono (fun ok σ₃ => ?_) fun _ _ _ => trivial
  rintro ⟨h₃, hon, hok⟩
  cases ok with
  | false => exact .none h₃ (hp.within_onward hs hs' hon)
  | true =>
    obtain ⟨hm, hnamed⟩ := hok rfl
    rw [← hcomp, ← hcomp'] at hm
    simp only [if_true, ends_bind]
    refine Spine.unify_ends.mono (fun _ σ₄ hsp => ?_) fun _ _ _ => trivial
    have hroot₄ := hsp.keeps.root
    replace hon := hon.trans (hsp.onward h₃.toWf)
    replace hm := hm.congr hroot₄
    obtain ⟨hnodup, hmem⟩ := joined_fields (fields'.map Prod.fst) fields fields'
      (hty' ▸ h.proper s' : (Ty.flexRecord fields' sp').Proper)
      (hty ▸ h.proper s : (Ty.flexRecord fields sp).Proper) fun _ _ hx => hx
    refine ⟨hsp.sound h₃, hp.within_onward hs hs' hon, fun ty hty'' => ?_⟩
    obtain rfl := Option.some.inj hty''
    refine hp.agreed hs hs' hon hne (hsp.sound h₃) hm (fun c hc => ?_) (fun c hc => ?_) hnodup rfl
      fun _ => ⟨hty₂ ▸ trivial, hf'.getTy ▸ trivial⟩
    · obtain ⟨x, hx, rfl⟩ := List.mem_map.mp hc
      rcases (hmem x).mp hx with hx | ⟨hx, -⟩
      · exact .inr (hcomp' ▸ List.mem_map_of_mem (hsub' x hx))
      · exact .inl (hcomp ▸ List.mem_map_of_mem (hsub x hx))
    · rw [Parts, hty, hty'] at hc
      rcases hc with hc | hc <;> obtain ⟨x, hx, rfl⟩ := List.mem_map.mp hc
      · by_cases hx' : x.1 ∈ fields'.map Prod.fst
        · -- a field of both is the same type in both by now
          obtain ⟨y, hy, hname⟩ := List.mem_map.mp hx'
          obtain ⟨z, hz, hname', heq⟩ := hnamed x (hsub x hx)
          obtain rfl := List.inj_on_of_nodup_map hf'.nodup (hsub' y hy) hz (hname.trans hname')
          exact ⟨y.2, List.mem_map_of_mem ((hmem y).mpr (.inl hy)), by rw [hroot₄]; exact heq.symm⟩
        · exact ⟨x.2, List.mem_map_of_mem ((hmem x).mpr (.inr ⟨hx, hx'⟩)), rfl⟩
      · exact ⟨x.2, List.mem_map_of_mem ((hmem x).mpr (.inl hx)), rfl⟩

end Types

/-- What is done with an unknown and another type keeps the times sound. -/
def KeepsTimes (L : Generalized) (one : OneUnknown) : Prop :=
  ∀ {σ : Env} {s n : TypeId} {u : Unknown}, Sound L σ → s < σ.next → n < σ.next → σ.root s ≠ σ.root n →
    σ.getTy s = .unknown u →
    (one u (σ.equality s) (σ.time s) s (σ.getTy n) n).Ends σ (Agrees L σ s n) fun _ _ => True

/-- Two unknowns become one. -/
theorem unknowns_ends {r r' : Unknown} (h : Sound L σ) (hs : s < σ.next) (hs' : s' < σ.next)
    (hne : σ.root s ≠ σ.root s') (hty : σ.getTy s = .unknown r) (hty' : σ.getTy s' = .unknown r') :
    Agrees L σ s s' (some (.unknown { canGeneralize := r.canGeneralize && r'.canGeneralize, id := σ.nextUnknown }))
      { σ with nextUnknown := σ.nextUnknown + 1 } := by
  have h' : Sound L { σ with nextUnknown := σ.nextUnknown + 1 } :=
    h.congr rfl rfl rfl rfl le_rfl le_rfl le_rfl (fun _ _ => rfl) h.spines
  exact Agrees.leaf h h' ⟨le_rfl, rfl, fun _ _ => rfl, fun _ _ => le_rfl, rfl, rfl, rfl⟩ hs hs' hne (hty ▸ rfl)
    (hty' ▸ rfl) rfl trivial nofun fun _ => ⟨hty ▸ trivial, hty' ▸ trivial⟩

/-- **Two types are found unifiable, or not.** -/
theorem unifyTy_ends {one : OneUnknown} {unify : TypeId → TypeId → Elaborates UnifyResult}
    (hone : KeepsTimes L one) (hun : Unifies L unify) (h : Sound L σ) (hs : s < σ.next) (hs' : s' < σ.next)
    (hne : σ.root s ≠ σ.root s') : (unifyTy one unify s s').Ends σ (Agrees L σ s s') fun _ _ => True := by
  have hnone : (pure none : Elaborates (Option Ty)).Ends σ (Agrees L σ s s') fun _ _ => True :=
    Agrees.none h (.refl σ)
  have hsymm : ∀ {x : Elaborates (Option Ty)}, x.Ends σ (Agrees L σ s' s) (fun _ _ => True) →
      x.Ends σ (Agrees L σ s s') fun _ _ => True := fun hx => hx.mono (fun _ _ h => h.symm) fun _ _ h => h
  have hone₁ {u ty} (hty : σ.getTy s = .unknown u) (hty' : σ.getTy s' = ty) :
      (one u (σ.equality s) (σ.time s) s ty s').Ends σ (Agrees L σ s s') fun _ _ => True :=
    hty' ▸ hone h hs hs' hne hty
  have hone₂ {u ty} (hty' : σ.getTy s' = .unknown u) (hty : σ.getTy s = ty) :
      (one u (σ.equality s') (σ.time s') s' ty s).Ends σ (Agrees L σ s s') fun _ _ => True :=
    hsymm (hty ▸ hone h hs' hs (Ne.symm hne) hty')
  have hcon₁ {c ts ty} (hty : σ.getTy s = .con c ts) (hty' : σ.getTy s' = ty) :
      (conAnd unify c ts (.con c ts) ty).Ends σ (Agrees L σ s s') fun _ _ => True :=
    hty' ▸ conAnd_ends hun h hs hs' hne hty
  have hcon₂ {c ts ty} (hty' : σ.getTy s' = .con c ts) (hty : σ.getTy s = ty) :
      (conAnd unify c ts (.con c ts) ty).Ends σ (Agrees L σ s s') fun _ _ => True :=
    hsymm (hty ▸ conAnd_ends hun h hs' hs (Ne.symm hne) hty')
  simp only [unifyTy, ends_bind, ends_get]
  cases hty : σ.getTy s with
  | unknown u =>
    cases hty' : σ.getTy s' with
    | unknown u' =>
      have hunk : (do
          modify fun σ => { σ with nextUnknown := σ.nextUnknown + 1 }
          pure (some (.unknown { canGeneralize := u.canGeneralize && u'.canGeneralize, id := σ.nextUnknown })) :
          Elaborates (Option Ty)).Ends σ (Agrees L σ s s') fun _ _ => True := unknowns_ends h hs hs' hne hty hty'
      cases σ.equality s <;> cases σ.equality s' <;> first | exact hnone | exact hunk
    | _ => exact hone₁ hty hty'
  | con c ts =>
    cases hty' : σ.getTy s' with
    | unknown u' => exact hone₂ hty' hty
    | _ => exact hcon₁ hty hty'
  | flexRecord fields sp =>
    cases hty' : σ.getTy s' with
    | unknown u' => exact hone₂ hty' hty
    | con => exact hcon₂ hty' hty
    | record r' => exact oneFlex_ends hun h hs hs' hne hty hty'
    | flexRecord fields' sp' => exact flexes_ends hun h hs hs' hne hty hty'
    | genFlexRecord => exact trivial
    | _ => exact hnone
  | genFlexRecord extra fields sp =>
    cases hty' : σ.getTy s' with
    | unknown u' => exact hone₂ hty' hty
    | con => exact hcon₂ hty' hty
    | _ => exact trivial
  | overload ov =>
    cases hty' : σ.getTy s' with
    | unknown u' => exact hone₂ hty' hty
    | con => exact hcon₂ hty' hty
    | genFlexRecord => exact trivial
    | overload ov' =>
      dsimp only
      split_ifs
      · exact Agrees.leaf h h (.refl σ) hs hs' hne (hty ▸ rfl) (hty' ▸ rfl) rfl trivial (by rintro _ ⟨⟩) (by rintro ⟨⟩)
      · exact hnone
    | _ => exact hnone
  | record r =>
    cases hty' : σ.getTy s' with
    | unknown u' => exact hone₂ hty' hty
    | con => exact hcon₂ hty' hty
    | flexRecord fields' sp' => exact hsymm (oneFlex_ends hun h hs' hs (Ne.symm hne) hty' hty)
    | genFlexRecord => exact trivial
    | record r' =>
      cases r <;> cases r' <;> dsimp only [Srecord.detupleOpt]
      · split_ifs with hlen
        · exact tuples_ends hun h hs hs' hne hty hty' hlen
        · exact hnone
      · exact hnone
      · exact hnone
      · exact records_ends hun h hs hs' hne hty hty'
    | _ => exact hnone
  | var a =>
    cases hty' : σ.getTy s' with
    | unknown u' => exact hone₂ hty' hty
    | con => exact hcon₂ hty' hty
    | genFlexRecord => exact trivial
    | var a' =>
      dsimp only
      split_ifs with heq
      · subst heq
        refine Agrees.leaf h h (.refl σ) hs hs' hne (hty ▸ rfl) (hty' ▸ rfl) rfl trivial (fun g hg => ?_) (by rintro ⟨⟩)
        rw [hty, hty']
        exact ⟨hg, hg⟩
      · exact hnone
    | _ => exact hnone

/-! ## Unification -/

section Merge

variable {joined : Equality} (hw : Within (Below σ s s') σ σ') (ha : Agreed L σ σ' s s' ty) (hs : s < σ.next)
  (hs' : s' < σ.next)

include hw ha hs hs'

omit hw hs hs' in
/-- What is put together with another type was one of the two. -/
theorem Agreed.root_eq (hn : n < σ.next) (heq : σ'.root n = σ'.root s ∨ σ'.root n = σ'.root s') :
    σ.root n = σ.root s ∨ σ.root n = σ.root s' :=
  heq.imp (ha.alone n hn) (ha.alone' n hn)

/-- **Two types put together**: only what is inside of them is changed. -/
theorem Agreed.within_merge (h : Sound L σ) (h' : Sound L σ') :
    Within (Below σ s s') σ (σ'.merge s s' joined ty) where
  next := hw.next
  grows := by
    have hroot : ∀ {n m}, σ'.root n = σ'.root m →
        (σ'.merge s s' joined ty).root n = (σ'.merge s s' joined ty).root m := fun heq => by
      simp only [Env.merge, heq]
    refine ⟨fun heq => hroot (hw.grows.root heq), fun {n c} hc => ?_⟩
    have hn : n < σ.next := by
      by_contra hn
      rw [components_graph, h.component_nil n (not_lt.mp hn)] at hc
      exact absurd hc List.not_mem_nil
    rw [components_graph, getTy_merge]
    split_ifs with heq
    · have hc' : Parts σ s s' c :=
        (ha.root_eq hn heq).imp (fun heq => getTy_congr heq ▸ hc) fun heq => getTy_congr heq ▸ hc
      obtain ⟨c', hc', heq'⟩ := ha.covers c hc'
      exact ⟨c', hc', hroot heq'⟩
    · obtain ⟨c', hc', heq'⟩ := hw.grows.component hc
      exact ⟨c', hc', hroot heq'⟩
  time n hn := by
    rw [h'.time_merge]
    split_ifs with heq
    · rcases ha.root_eq hn heq with heq | heq
      · exact (min_le_left _ _).trans (time_congr heq ▸ hw.time s hs)
      · exact (min_le_right _ _).trans (time_congr heq ▸ hw.time s' hs')
    · exact hw.time n hn
  clock := hw.clock
  same z hz hout := by
    have hz' : ¬ (σ'.root z = σ'.root s ∨ σ'.root z = σ'.root s') := fun heq =>
      hout (.inr ((ha.root_eq hz heq).imp (.here ·.symm) (.here ·.symm)))
    obtain ⟨hcell, halone⟩ := hw.same z hz hout
    refine ⟨?_, fun n hn heq => (root_of_merge heq).elim (halone n hn) fun heq => absurd heq.2 hz'⟩
    rw [← hcell]
    simp only [Env.cell, Env.merge]
    rw [if_neg fun heq => hz' (.inr heq), Function.update_of_ne fun heq => hz' (.inl heq)]
  bounded n hn m hm hr := by
    have hr' : σ'.graph.Reach n m ∨ σ'.graph.Reach s m ∨ σ'.graph.Reach s' m := by
      refine Reach.of_merged (fun n k heq => ?_) (fun n c hc => ?_) hr
      · exact root_of_merge (show (σ'.merge s s' joined ty).root n = (σ'.merge s s' joined ty).root k from heq)
      · exact ha.mergeable.parts_merge (show c ∈ ((σ'.merge s s' joined ty).getTy n).components from hc)
    rcases hr' with hr' | hr' | hr'
    · exact hw.bounded n hn m hm hr'
    · exact .inr ((hw.bounded s hs m hm hr').elim (fun hr => .inr (.inl hr)) id)
    · exact .inr ((hw.bounded s' hs' m hm hr').elim (fun hr => .inr (.inr hr)) id)

end Merge

/-- **Unification keeps the times sound**, if what is done with unknowns does. -/
theorem unifyWith_ends {one : OneUnknown} (hone : KeepsTimes L one) : ∀ k, Unifies L (unifyWith one k)
  | 0, _, _, _, _, _, _ => trivial
  | k + 1, σ, s, s', h, hs, hs' => by
    simp only [unifyWith, ends_bind, ends_get]
    split_ifs with heq
    · exact ⟨h, .refl σ, fun _ => heq⟩
    · simp only [ends_bind]
      refine (unifyTy_ends hone (unifyWith_ends hone k) h hs hs' heq).mono (fun o σ' => ?_) fun _ _ _ => trivial
      rintro ⟨h', hw, hagreed⟩
      cases o with
      | none => exact ⟨h', hw, (by rintro ⟨⟩)⟩
      | some ty =>
        have ha := hagreed ty rfl
        simp only [ends_bind, ends_modify, ends_get]
        cases hjoin : Equality.join _ _ with
        | error e => exact trivial
        | ok joined =>
          rw [ends_of_ok]
          refine Eq.mpr (congrArg (fun σ'' => Sound L σ'' ∧ Within (Below σ s s') σ σ'' ∧
            (UnifyResult.unified = .unified → σ''.root s = σ''.root s')) ?_)
            (⟨ha.mergeable.sound h', ha.within_merge hw hs hs' h h', fun _ => ?_⟩ :
              Sound L (σ'.merge s s' joined ty) ∧ _)
          · obtain ⟨htime, hequality⟩ := ha.cell
            obtain ⟨htime', -⟩ := ha.cell'
            simp only [Env.merge, Env.setCell, Env.union, Env.time, htime, hequality, htime', ite_self]
          · simp only [Env.merge, if_true]
            split_ifs <;> rfl

/-! ## Timely unifications -/

open Classical in
/-- What is done with an unknown and another type, but not with an equality type that is not timely. -/
noncomputable def timelyUnknown (L : Generalized) (k : ℕ) : OneUnknown := fun u equality time outer t' outer' =>
  match equality with
  | .true => do
    if Timely L (← get) time outer outer' then oneUnknown k u .true time outer t' outer' else raise .cutOff
  | equality => oneUnknown k u equality time outer t' outer'

theorem timelyUnknown_keepsTimes (L : Generalized) (k : ℕ) : KeepsTimes L (timelyUnknown L k) := by
  intro σ s n u h hs hn hne hu
  have hends := oneUnknown_ends (k := k) h hs hn hne hu
  unfold timelyUnknown
  cases heq : σ.equality s with
  | true =>
    rw [heq] at hends
    simp only [ends_bind, ends_get]
    split_ifs with htimely
    · exact hends fun _ => htimely
    · exact trivial
  | _ =>
    rw [heq] at hends
    exact hends (by rintro ⟨⟩)

/-- **Unification comes by timely equality types only.** -/
def TimelyUnify (L : Generalized) (k : ℕ) (s s' : TypeId) (σ : Env) : Prop :=
  unifyWith (timelyUnknown L k) k s s' σ = unify k s s' σ

/-- **Timely unification keeps the times sound.** -/
theorem unify_ends {k : ℕ} (h : Sound L σ) (hs : s < σ.next) (hs' : s' < σ.next) (htimely : TimelyUnify L k s s' σ) :
    (unify k s s').Ends σ (fun r σ' => Sound L σ' ∧ Within (Below σ s s') σ σ' ∧
      (r = .unified → σ'.root s = σ'.root s')) fun _ _ => True := by
  have hends := unifyWith_ends (timelyUnknown_keepsTimes L k) k h hs hs'
  unfold Ends at hends ⊢
  rwa [show unifyWith (timelyUnknown L k) k s s' σ = unify k s s' σ from htimely] at hends

/-- What is done with an unknown and a type that is none. -/
theorem unifyTy_unknown {one : OneUnknown} {unify : TypeId → TypeId → Elaborates UnifyResult} {u : Unknown}
    (hu : σ.getTy s = .unknown u) (hn : ∀ u', σ.getTy n ≠ .unknown u') :
    unifyTy one unify s n σ = one u (σ.equality s) (σ.time s) s (σ.getTy n) n σ := by
  rw [unifyTy, get_bind, hu]
  cases hty : σ.getTy n with
  | unknown u' => exact absurd hty (hn u')
  | _ => rfl

/-- An unknown that is timely is unified in time. -/
theorem timelyUnify_of_unknown {k : ℕ} {u : Unknown} (hu : σ.getTy s = .unknown u)
    (hn : ∀ u', σ.getTy n ≠ .unknown u') (ht : Timely L σ (σ.time s) s n) : TimelyUnify L (k + 1) s n σ := by
  have hone : timelyUnknown L (k + 1) u (σ.equality s) (σ.time s) s (σ.getTy n) n σ =
      oneUnknown (k + 1) u (σ.equality s) (σ.time s) s (σ.getTy n) n σ := by
    unfold timelyUnknown
    cases σ.equality s with
    | true => exact congrFun (if_pos ht) σ
    | _ => rfl
  rw [TimelyUnify, unify, unifyWith, unifyWith, get_bind, get_bind]
  split_ifs
  · rfl
  · exact bind_congr (by rw [unifyTy_unknown hu hn, unifyTy_unknown hu hn, hone])

end MLton.TypeEnv
