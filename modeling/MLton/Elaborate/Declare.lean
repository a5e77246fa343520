import MLton.Elaborate.Generalize

/-!
# Elaborate/Declare — the elaborator's runs

Types are made, unified and closed in any order, and a declaration that has been begun may be closed whenever the
elaborator comes to its end.  In every run whose unifications come by timely equality types only, what can still be
unified is no later than what it is inside of, and what has been closed with a declaration is inside of no type
from before the declaration (`declarations_closed`).  Without that condition the second fails
(`declaration_not_closed`).
-/

namespace MLton.TypeEnv

open Raises TermGraph

variable {σ σ' : Env} {L : Generalized} {n t : TypeId} {b : Time} {k : ℕ}

/-! ## What the elaborator does -/

/-- The types, what declarations have been closed with, and the times before the declarations that have been begun. -/
structure Moment where
  env : Env
  generalized : Generalized
  begun : List Time

/-- The state at the start. -/
def Moment.start (nextTycon : Tycon) (tycons : Tycon → TyconInfo) : Moment := ⟨.start nextTycon tycons, [], []⟩

/-- A change of the types. -/
inductive Op where
  | tick
  | makeTyvar (equality : Bool)
  | makeTycon (admitsEquality : AdmitsEquality)
  | setAdmitsEquality (c : Tycon) (admitsEquality : AdmitsEquality)
  | newSpine (fields : List Field)
  | unknown (canGeneralize : Bool) (equality : Equality)
  | con (c : Tycon) (ts : List TypeId)
  | record (v : List (Field × TypeId))
  | flexRecord (r : Srecord TypeId)
  | newFlex (fields : List (Field × TypeId)) (spine : Spine)
  | overload (ov : Overload)
  | var (a : Tyvar)
  | checkTime (k : ℕ) (t : TypeId) (bound : Time)
  | unify (k : ℕ) (s s' : TypeId)
  | begin
  | close (k : ℕ) (beforeGen : Time) (ensure : List Tyvar) (varTypes : List VarType)
  | extra (g : GenFlexRecord) (beforeGen : Time)

/-- What is done with the types. -/
def onTypes {α : Type} (x : Elaborates α) : Raises Exn Moment α := zoom Moment.env (fun σ m => { m with env := σ }) x

namespace Op

def run : Op → Raises Exn Moment Unit
  | tick => onTypes TypeEnv.tick
  | makeTyvar equality => discard (onTypes (makeNoname equality))
  | makeTycon admitsEquality => discard (onTypes (TypeEnv.makeTycon admitsEquality))
  | setAdmitsEquality c a => onTypes do
    modify fun σ => { σ with tycons := Function.update σ.tycons c { σ.tycons c with admitsEquality := a } }
  | newSpine fields => discard (onTypes (Spine.new fields))
  | unknown canGeneralize equality => discard (onTypes do Typ.unknown canGeneralize equality (← get).clock)
  | con c ts => discard (onTypes (Typ.con c ts))
  | record v => discard (onTypes (Typ.record (.fromVector v)))
  | flexRecord r => discard (onTypes (Typ.flexRecord r))
  | newFlex fields spine => discard (onTypes (Typ.newFlex fields spine))
  | overload ov => discard (onTypes (Typ.newTy (.overload ov)))
  | var a => discard (onTypes (Typ.var a))
  | checkTime k t bound => discard (onTypes (TypeEnv.checkTime k t bound))
  | unify k s s' => discard (onTypes (TypeEnv.unify k s s'))
  | begin => do
    modify fun m => { m with begun := m.env.clock :: m.begun }
    onTypes TypeEnv.tick
  | close k beforeGen ensure varTypes => do
    let c ← onTypes (TypeEnv.close k beforeGen ensure varTypes)
    modify fun m => { m with generalized := c.generalized beforeGen ensure ++ m.generalized }
  | extra g beforeGen => do
    let old := (← get).env.extras g.extra
    let new ← onTypes (TypeEnv.extra g)
    modify fun m => { m with generalized := extras beforeGen old new ++ m.generalized }

/-- What it is done with is there, a record has no field twice, and a declaration that is closed has been begun. -/
def Valid (m : Moment) : Op → Prop
  | newSpine fields => fields.Nodup
  | con _ ts => ∀ t ∈ ts, t < m.env.next
  | record v => (∀ x ∈ v, x.2 < m.env.next) ∧ (v.map Prod.fst).Nodup
  | flexRecord r => (∀ t ∈ r.range, t < m.env.next) ∧ (r.toVector.map Prod.fst).Nodup
  | newFlex fields _ => (∀ x ∈ fields, x.2 < m.env.next) ∧ (fields.map Prod.fst).Nodup
  | var a => a < m.env.nextTyvar
  | checkTime _ t bound => t < m.env.next ∧ bound ≤ m.env.clock
  | unify _ s s' => s < m.env.next ∧ s' < m.env.next
  | close _ beforeGen ensure varTypes =>
    beforeGen ∈ m.begun ∧ (∀ a ∈ ensure, a < m.env.nextTyvar) ∧ ∀ v ∈ varTypes, v.ty < m.env.next
  | extra g beforeGen => (.flex g.extra, beforeGen) ∈ m.generalized
  | _ => True

/-- Unification comes by timely equality types only. -/
def Timely (m : Moment) : Op → Prop
  | unify k s s' => TimelyUnify m.generalized k s s' m.env
  | _ => True

end Op

/-- One change, where all changes are as they may be. -/
def Goes (ok : Moment → Op → Prop) (m m' : Moment) : Prop := ∃ op : Op, ok m op ∧ op.run m = (.ok (), m')

/-- **A run of the elaborator**. -/
def Runs (ok : Moment → Op → Prop) : Moment → Moment → Prop := Relation.ReflTransGen (Goes ok)

/-! ## What a change keeps -/

/-- A change of the types alone. -/
def Grown (L : Generalized) (σ : Env) {α : Type} (_ : α) (σ' : Env) : Prop := Sound L σ' ∧ Onwards σ σ'

theorem Made.grown {ty : Ty} {τ : Time} {t : TypeId} (h : Made L σ τ ty t σ') : Grown L σ t σ' :=
  ⟨h.sound, h.extends'.onwards⟩

theorem newTy_grown {ty : Ty} (h : Sound L σ) (hlt : ∀ c ∈ ty.components, c < σ.next) (hproper : ty.Proper)
    (hmade : ∀ g, ty.generic = some g → g.Made σ) : (Typ.newTy ty).Ends σ (Grown L σ) fun _ _ => True :=
  (newTy_ends h hlt hproper hmade).mono (fun _ _ hm => hm.grown) fun _ _ _ => trivial

theorem tuple_grown {ts : List TypeId} (h : Sound L σ) (hlt : ∀ t ∈ ts, t < σ.next) (hlen : ts.length ≠ 1) :
    (Typ.newTy (.record (.tuple ts))).Ends σ (Grown L σ) fun _ _ => True :=
  newTy_grown h hlt ⟨Srecord.nodup_tuple _, fun _ hv => Srecord.tuple.inj hv ▸ hlen⟩ nofun

theorem con_grown {c : Tycon} {ts : List TypeId} (h : Sound L σ) (hlt : ∀ t ∈ ts, t < σ.next) :
    (Typ.con c ts).Ends σ (Grown L σ) fun _ _ => True := by
  simp only [Typ.con]
  split_ifs with hc
  · rcases ts with - | ⟨t, - | ⟨t', ts⟩⟩
    · exact tuple_grown h hlt (by simp)
    · exact ⟨h, .refl σ⟩
    · exact tuple_grown h hlt (by simp)
  · exact newTy_grown h hlt hc (by rintro _ ⟨⟩)

theorem Spine.new_ends {fields : List Field} {Q : Spine → Env → Prop} {E : Exn → Env → Prop} :
    (Spine.new fields).Ends σ Q E ↔ Q σ.nextSpine { σ with
      nextSpine := σ.nextSpine + 1
      spines := Function.update σ.spines σ.nextSpine ⟨fields, true⟩ } := Iff.rfl

/-- A new spine. -/
theorem Sound.newSpine {fields : List Field} (h : Sound L σ) (hnodup : fields.Nodup) :
    Sound L { σ with
      nextSpine := σ.nextSpine + 1
      spines := Function.update σ.spines σ.nextSpine ⟨fields, true⟩ } := by
  refine h.congr rfl rfl rfl rfl le_rfl le_rfl le_rfl (fun _ _ => rfl) fun s => ?_
  by_cases hs : s = σ.nextSpine
  · simp only [hs, Function.update_self]
    exact hnodup
  · simp only [Function.update_of_ne hs]
    exact h.spines s

theorem flexRecord_grown {r : Srecord TypeId} (h : Sound L σ) (hlt : ∀ t ∈ r.range, t < σ.next)
    (hnodup : (r.toVector.map Prod.fst).Nodup) : (Typ.flexRecord r).Ends σ (Grown L σ) fun _ _ => True := by
  simp only [Typ.flexRecord, ends_bind, Spine.new_ends]
  have hlt' : ∀ c ∈ (Ty.flexRecord r.toVector σ.nextSpine).components, c < σ.next := fun c hc => by
    rw [Ty.components, Srecord.map_snd_toVector] at hc
    exact hlt c hc
  refine (newTy_grown (h.newSpine hnodup) hlt' hnodup (by rintro _ ⟨⟩)).mono (fun t σ' => ?_) fun _ _ _ => trivial
  rintro ⟨h', ho⟩
  exact ⟨h', ho.next, ho.time, ho.clock⟩

/-- **The times are sound, and the declarations that have been begun are in the past.** -/
def Moment.Fine (m : Moment) : Prop := Sound m.generalized m.env ∧ ∀ b ∈ m.begun, b < m.env.clock

/-- The types go on, and what has been closed stays closed. -/
def Moment.Goes (m m' : Moment) : Prop := Onwards m.env m'.env ∧ ∀ x ∈ m.generalized, x ∈ m'.generalized

theorem onTypes_ends {α : Type} {x : Elaborates α} {m : Moment} (hm : m.Fine)
    (hx : x.Ends m.env (Grown m.generalized m.env) fun _ _ => True) :
    (onTypes x).Ends m (fun _ m' => m'.Fine ∧ m.Goes m') fun _ _ => True := by
  simp only [onTypes, ends_zoom]
  refine hx.mono (fun _ _ => ?_) fun _ _ _ => trivial
  rintro ⟨h, ho⟩
  exact ⟨⟨h, fun b hb => (hm.2 b hb).trans_le ho.clock⟩, ho, fun _ hx => hx⟩

theorem discard_ends {α : Type} {x : Raises Exn Moment α} {m : Moment} {Q : Moment → Prop}
    (hx : x.Ends m (fun _ m' => Q m') fun _ _ => True) :
    (discard x).Ends m (fun _ m' => Q m') fun _ _ => True := by
  have heq : discard x = (do let _ ← x; pure ()) := rfl
  rw [heq, ends_bind]
  exact hx

/-- **A change keeps the times sound**, if it is as it may be and timely. -/
theorem Op.run_ends {m : Moment} {op : Op} (hm : m.Fine) (hv : op.Valid m) (ht : op.Timely m) :
    op.run.Ends m (fun _ m' => m'.Fine ∧ m.Goes m') fun _ _ => True := by
  obtain ⟨h, hbegun⟩ := hm
  have hcongr : ∀ {σ'}, Sound m.generalized σ' → σ'.next = m.env.next → σ'.time = m.env.time →
      m.env.clock ≤ σ'.clock → Sound m.generalized σ' ∧ Onwards m.env σ' := fun h' hn hτ hc =>
    ⟨h', hn.ge, fun n _ => (congrFun hτ n).le, hc⟩
  cases op with
  | tick =>
    refine onTypes_ends ⟨h, hbegun⟩ (hcongr ?_ rfl rfl (Nat.le_add_left _ _))
    exact h.congr rfl rfl rfl rfl (Nat.le_add_left _ _) le_rfl le_rfl (fun _ _ => rfl) h.spines
  | makeTyvar equality =>
    refine discard_ends (onTypes_ends ⟨h, hbegun⟩ (hcongr ?_ rfl rfl le_rfl))
    exact h.congr rfl rfl rfl rfl le_rfl le_rfl (Nat.le_succ _)
      (fun a ha => Function.update_of_ne (Nat.ne_of_lt ha) _ _) h.spines
  | makeTycon a =>
    refine discard_ends (onTypes_ends ⟨h, hbegun⟩ (hcongr ?_ rfl rfl le_rfl))
    exact h.congr rfl rfl rfl rfl le_rfl le_rfl le_rfl (fun _ _ => rfl) h.spines
  | setAdmitsEquality c a =>
    refine onTypes_ends ⟨h, hbegun⟩ (hcongr ?_ rfl rfl le_rfl)
    exact h.congr rfl rfl rfl rfl le_rfl le_rfl le_rfl (fun _ _ => rfl) h.spines
  | newSpine fields => exact discard_ends (onTypes_ends ⟨h, hbegun⟩ (hcongr (h.newSpine hv) rfl rfl le_rfl))
  | unknown canGeneralize equality =>
    refine discard_ends (onTypes_ends ⟨h, hbegun⟩ ?_)
    simp only [ends_bind, ends_get]
    refine (unknown_ends h le_rfl).mono (fun _ _ => ?_) fun _ _ _ => trivial
    rintro ⟨⟨_, hm⟩, _⟩
    exact hm.grown
  | con c ts => exact discard_ends (onTypes_ends ⟨h, hbegun⟩ (con_grown h hv))
  | record v =>
    refine discard_ends (onTypes_ends ⟨h, hbegun⟩ (newTy_grown h (fun c hc => ?_) (proper_fromVector hv.2) (by rintro _ ⟨⟩)))
    obtain ⟨x, hx, rfl⟩ := List.mem_map.mp (Srecord.mem_range_fromVector.mp hc)
    exact hv.1 x hx
  | flexRecord r => exact discard_ends (onTypes_ends ⟨h, hbegun⟩ (flexRecord_grown h hv.1 hv.2))
  | newFlex fields spine =>
    refine discard_ends (onTypes_ends ⟨h, hbegun⟩ (newTy_grown h (fun c hc => ?_) hv.2 (by rintro _ ⟨⟩)))
    obtain ⟨x, hx, rfl⟩ := List.mem_map.mp hc
    exact hv.1 x hx
  | overload ov => exact discard_ends (onTypes_ends ⟨h, hbegun⟩ (newTy_grown h (by rintro _ ⟨⟩) trivial (by rintro _ ⟨⟩)))
  | var a =>
    refine discard_ends (onTypes_ends ⟨h, hbegun⟩ (newTy_grown h (by rintro _ ⟨⟩) trivial fun g hg => ?_))
    obtain rfl := Option.some.inj hg
    exact hv
  | checkTime k t bound =>
    refine discard_ends (onTypes_ends ⟨h, hbegun⟩ ?_)
    refine (checkTime_ends h hv.1 hv.2).mono (fun _ _ => ?_) fun _ _ _ => trivial
    rintro ⟨h', he, _⟩
    exact ⟨h', he.1.onwards⟩
  | unify k s s' =>
    refine discard_ends (onTypes_ends ⟨h, hbegun⟩ ?_)
    refine (unify_ends h hv.1 hv.2 ht).mono (fun _ _ => ?_) fun _ _ _ => trivial
    rintro ⟨h', hw, _⟩
    exact ⟨h', hw.next, hw.time, hw.clock.ge⟩
  | begin =>
    have hlt : m.env.clock < 1 + m.env.clock := Nat.lt_add_of_pos_left Nat.one_pos
    refine ⟨⟨h.congr rfl rfl rfl rfl hlt.le le_rfl le_rfl (fun _ _ => rfl) h.spines, fun b hb => ?_⟩,
      ⟨le_rfl, fun _ _ => le_rfl, hlt.le⟩, fun _ hx => hx⟩
    rcases List.mem_cons.mp hb with rfl | hb
    · exact hlt
    · exact (hbegun b hb).trans hlt
  | close k b ensure vs =>
    simp only [run, onTypes, ends_bind, ends_zoom, ends_modify]
    refine (close_ends h (hbegun b hv.1) hv.2.2).mono (fun c σ' => ?_) fun _ _ _ => trivial
    rintro ⟨h', ho⟩
    exact ⟨⟨h', fun b hb => (hbegun b hb).trans_le ho.clock⟩, ho, fun _ hx => List.mem_append_right _ hx⟩
  | extra g b =>
    simp only [run, onTypes, ends_bind, ends_get, ends_zoom, ends_modify]
    refine (extra_ends h (h.generalized _ b hv).2.1).mono (fun new σ' => ?_) fun _ _ _ => trivial
    rintro ⟨h', ho⟩
    exact ⟨⟨h', fun b hb => (hbegun b hb).trans_le ho.clock⟩, ho, fun _ hx => List.mem_append_right _ hx⟩

/-! ## Runs -/

theorem Moment.Goes.refl (m : Moment) : m.Goes m := ⟨.refl _, fun _ hx => hx⟩

theorem Moment.Goes.trans {m m' m'' : Moment} (h : m.Goes m') (h' : m'.Goes m'') : m.Goes m'' :=
  ⟨h.1.trans h'.1, fun x hx => h'.2 x (h.2 x hx)⟩

/-- At the start no type is there. -/
theorem fine_start (nextTycon : Tycon) (tycons : Tycon → TyconInfo) : (Moment.start nextTycon tycons).Fine := by
  refine ⟨⟨⟨fun _ => rfl, fun _ hn => hn, fun _ _ => rfl, fun _ _ => ⟨rfl, rfl⟩, nofun, fun _ _ => rfl,
    ⟨fun _ => 0, fun _ _ _ => rfl, nofun⟩, fun _ => ⟨List.nodup_nil, fun v hv => ?_⟩, nofun, fun _ => List.nodup_nil⟩,
    nofun, nofun, fun n m _ => ⟨nofun, nofun⟩⟩, nofun⟩
  exact Srecord.tuple.inj hv ▸ Nat.zero_ne_one

/-- **A run keeps the times sound**, if its changes are as they may be and timely. -/
theorem Runs.fine {m m' : Moment} (hr : Runs (fun m op => op.Valid m ∧ op.Timely m) m m') (hm : m.Fine) :
    m'.Fine ∧ m.Goes m' := by
  induction hr with
  | refl => exact ⟨hm, .refl m⟩
  | tail _ hstep ih =>
    obtain ⟨op, ⟨hv, ht⟩, hrun⟩ := hstep
    have hends := op.run_ends ih.1 hv ht
    rw [Ends, hrun] at hends
    exact ⟨hends.1, ih.2.trans hends.2⟩

/-- One more change at the front of a run. -/
theorem Runs.head {ok : Moment → Op → Prop} {m m' m'' : Moment} (op : Op) (hok : ok m op)
    (hrun : op.run m = (.ok (), m')) (h : Runs ok m' m'') : Runs ok m m'' :=
  Relation.ReflTransGen.head ⟨op, hok, hrun⟩ h

/-- **What has been closed with a declaration is inside of no type from before it**, in every run whose
unifications come by timely equality types only: what can still be unified, in any type, is no later than the
type ever was. -/
theorem declarations_closed {nextTycon : Tycon} {tycons : Tycon → TyconInfo} {m m' : Moment}
    (h : Runs (fun m op => op.Valid m ∧ op.Timely m) (.start nextTycon tycons) m)
    (h' : Runs (fun m op => op.Valid m ∧ op.Timely m) m m') :
    (∀ n < m.env.next, ∀ k, m'.env.graph.Reach n k → (m'.env.getTy k).Open → m'.env.time k ≤ m.env.time n) ∧
      ∀ g b, (g, b) ∈ m'.generalized → ∀ n, m'.env.time n ≤ b → ∀ k, m'.env.graph.Reach n k →
        (m'.env.getTy k).generic ≠ some g := by
  obtain ⟨hm, -⟩ := h.fine (fine_start nextTycon tycons)
  obtain ⟨⟨hs, -⟩, ho, -⟩ := h'.fine hm
  refine ⟨fun n hn k hr hopen => ((hs.fits n k hr).1 hopen).trans (ho.time n hn), fun g b hb n hle k hr hg => ?_⟩
  exact absurd ((hs.fits n k hr).2 g b hg hb) (not_lt.mpr hle)

/-- An equality type that is unified with a type of its own time keeps out what a later declaration is closed with. -/
theorem declarations_closed_unit : ∃ m : Moment, (.tyvar 0, 0) ∈ m.generalized ∧ m.env.time 0 ≤ 0 ∧
    ∀ k, m.env.graph.Reach 0 k → (m.env.getTy k).generic ≠ some (.tyvar 0) := by
  refine ⟨_, ?_, ?_, (@declarations_closed 2 (fun _ => ⟨.always, 0, none⟩) _ _
    (.head (.unknown true .true) ⟨trivial, trivial⟩ rfl <|
      .head (.con 1 []) ⟨nofun, trivial⟩ rfl <|
      .head (.unify 5 0 1)
        ⟨⟨Nat.succ_pos 1, Nat.lt_succ_self 1⟩, timelyUnify_of_unknown rfl nofun (.inl le_rfl)⟩ rfl .refl)
    (.head .begin ⟨trivial, trivial⟩ rfl <|
      .head (.unknown true .unknown) ⟨trivial, trivial⟩ rfl <|
      .head (.close 5 0 [] [⟨false, 2⟩])
        ⟨⟨List.mem_singleton_self 0, nofun, List.forall_mem_singleton.mpr (Nat.lt_succ_self 2)⟩, trivial⟩
        rfl .refl)).2 (.tyvar 0) 0 (List.mem_singleton_self _) 0 (le_refl 0)⟩
  · exact List.mem_singleton_self _
  · exact le_refl 0

/-- **A declaration can be closed with what is inside of a type from before it**: an equality type that is
unified with a later type does not make that type any earlier. -/
theorem declaration_not_closed : ¬ ∀ (nextTycon : Tycon) (tycons : Tycon → TyconInfo) (m : Moment),
    Runs (fun m op => op.Valid m) (.start nextTycon tycons) m → ∀ g b, (g, b) ∈ m.generalized →
      ∀ n, m.env.time n ≤ b → ∀ k, m.env.graph.Reach n k → (m.env.getTy k).generic ≠ some g := by
  intro hall
  refine hall 2 (fun c => if c = 1 then ⟨.sometimes, 0, none⟩ else ⟨.always, 0, none⟩) _
    (.head (.unknown true .true) trivial rfl <|
      .head .begin trivial rfl <|
      .head (.unknown true .unknown) trivial rfl <|
      .head (.con 1 [1]) (List.forall_mem_singleton.mpr (Nat.lt_succ_self 1)) rfl <|
      .head (.unify 5 0 2) ⟨Nat.succ_pos 2, Nat.lt_succ_self 2⟩ rfl <|
      .head (.close 5 0 [] [⟨false, 1⟩]) ⟨List.mem_singleton_self 0, nofun,
        List.forall_mem_singleton.mpr (Nat.lt_succ_of_lt (Nat.lt_succ_self 1))⟩ rfl .refl)
    (.tyvar 0) 0 ?_ 0 ?_ 1 ?_ ?_
  · exact List.mem_singleton_self _
  · exact le_refl 0
  · exact .inside (List.mem_singleton_self 1) (.here rfl)
  · rfl

end MLton.TypeEnv
