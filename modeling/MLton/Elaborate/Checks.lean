import MLton.Elaborate.Walks
import Mathlib.Data.List.Sort
import Mathlib.Data.List.Range

/-!
# Elaborate/Checks — the walks that check a type

`checkTime` makes a type no later than a bound, or gives another type that is, and `checkEquality` makes it an
equality type.  Both leave the types that were there as they are, but for their times and equalities
(`Extends`), and what they give is made of what they walked over.
-/

namespace MLton.TypeEnv

open Raises TermGraph

variable {σ σ' σ'' : Env} {L : Generalized} {n m t : TypeId} {ty : Ty} {τ bound : Time}

/-! ## Records -/

namespace Srecord

variable {α β : Type} {v : List (Field × α)} {r : Srecord α} {bs : List β}

theorem mem_range_fromVector {c : α} : c ∈ (fromVector v).range ↔ c ∈ v.map Prod.snd := by
  have hperm := List.mergeSort_perm v fun x y => x.1.le y.1
  simp only [fromVector]
  split_ifs
  · exact (hperm.map Prod.snd).mem_iff
  · exact (hperm.map Prod.snd).mem_iff

theorem nodup_tuple (v : List α) : ((tuple v).toVector.map Prod.fst).Nodup := by
  have heq : (tuple v).toVector.map Prod.fst = (List.range v.length).map fun i : ℕ => Field.int i :=
    List.ext_getElem (by simp [toVector]) fun i _ _ => by simp [toVector]
  rw [heq]
  exact List.Nodup.map (fun i j h => Int.ofNat_inj.mp (Field.int.inj h)) List.nodup_range

theorem range_withRange (h : bs.length = r.range.length) : (r.withRange bs).range = bs := by
  cases r with
  | tuple v => rfl
  | record v =>
    simp only [withRange, range]
    rw [List.map_snd_zip]
    simpa [range] using h.le

theorem map_snd_toVector (r : Srecord α) : r.toVector.map Prod.snd = r.range := by
  cases r with
  | tuple v => exact List.ext_getElem (by simp [toVector, range]) fun i _ _ => by simp [toVector, range]
  | record v => rfl

end Srecord

theorem proper_fromVector {v : List (Field × TypeId)} (h : (v.map Prod.fst).Nodup) :
    (Ty.record (.fromVector v)).Proper := by
  have hperm := List.mergeSort_perm v fun x y => x.1.le y.1
  simp only [Srecord.fromVector]
  split_ifs with htuple
  · refine ⟨Srecord.nodup_tuple _, fun w hw => ?_⟩
    obtain rfl := Srecord.tuple.inj hw
    rw [List.length_map]
    exact htuple.2
  · exact ⟨(hperm.map Prod.fst).nodup_iff.mpr h, nofun⟩

/-! ## Going on with the types that are there -/

/-- **The types that were there stay**, but for their equalities, and for times that get earlier. -/
structure Extends (σ σ' : Env) : Prop where
  next : σ.next ≤ σ'.next
  root : σ'.root = σ.root
  cells : ∀ n < σ.next, σ'.cells n = σ.cells n
  time : ∀ n < σ.next, σ'.time n ≤ σ.time n
  clock : σ'.clock = σ.clock
  tycons : σ'.tycons = σ.tycons
  tyvars : σ'.tyvars = σ.tyvars

namespace Extends

theorem refl (σ : Env) : Extends σ σ := ⟨le_rfl, rfl, fun _ _ => rfl, fun _ _ => le_rfl, rfl, rfl, rfl⟩

theorem trans (h : Extends σ σ') (h' : Extends σ' σ'') : Extends σ σ'' where
  next := h.next.trans h'.next
  root := h'.root.trans h.root
  cells n hn := (h'.cells n (hn.trans_le h.next)).trans (h.cells n hn)
  time n hn := (h'.time n (hn.trans_le h.next)).trans (h.time n hn)
  clock := h'.clock.trans h.clock
  tycons := h'.tycons.trans h.tycons
  tyvars := h'.tyvars.trans h.tyvars

variable (h : Extends σ σ') (hwf : σ.Wf)

include h hwf

theorem cell (hn : n < σ.next) : σ'.cell n = σ.cell n := by
  rw [Env.cell, h.root, h.cells _ (hwf.root_lt n hn), Env.cell]

theorem getTy (hn : n < σ.next) : σ'.getTy n = σ.getTy n := congrArg Cell.ty (h.cell hwf hn)

theorem reach (hn : n < σ.next) : σ'.graph.Reach n m ↔ σ.graph.Reach n m := by
  refine ⟨fun hr => ?_, fun hr => ?_⟩
  · induction hr with
    | here heq => exact .here ((congrFun h.root _).symm.trans (heq.trans (congrFun h.root _)))
    | @inside n m c hc _ ih =>
      rw [components_graph, h.getTy hwf hn] at hc
      exact .inside hc (ih (hwf.component_lt n c hc))
  · induction hr with
    | here heq => exact .here ((congrFun h.root _).trans (heq.trans (congrFun h.root _).symm))
    | @inside n m c hc _ ih =>
      refine .inside (c := c) ?_ (ih (hwf.component_lt n c hc))
      rw [components_graph, h.getTy hwf hn]
      exact hc

end Extends

/-- The types that were there stay, with their times. -/
structure Keeps (σ σ' : Env) : Prop extends Extends σ σ' where
  time_eq : ∀ n < σ.next, σ'.time n = σ.time n

theorem Keeps.refl (σ : Env) : Keeps σ σ := ⟨.refl σ, fun _ _ => rfl⟩

theorem Keeps.trans (h : Keeps σ σ') (h' : Keeps σ' σ'') : Keeps σ σ'' :=
  ⟨h.toExtends.trans h'.toExtends,
    fun n hn => (h'.time_eq n (hn.trans_le h.next)).trans (h.time_eq n hn)⟩

/-! ## Making types -/

/-- **A type has been made**, and if it is open, it is no earlier than a time. -/
structure Made (L : Generalized) (σ : Env) (τ : Time) (ty : Ty) (t : TypeId) (σ' : Env) : Prop where
  sound : Sound L σ'
  extends' : Extends σ σ'
  equalities : ∀ n < σ.next, σ'.equality n = σ.equality n
  eq : t = σ.next
  lt : t < σ'.next
  getTy : σ'.getTy t = ty
  time : ∀ n < σ.next, σ'.time n = σ.time n
  le_time : ty.Open → τ ≤ σ'.time t

theorem made_make (ty : Ty) {e : Equality} (h : Sound L σ) (hp : Placed L σ τ ty) (hopen : ty.Open → τ ≤ σ.clock) :
    Made L σ τ ty σ.next (σ.make e τ ty) := by
  have htime : ∀ n < σ.next, (σ.make e τ ty).time n = σ.time n := fun n hn => by rw [h.time_make, if_neg hn.ne]
  refine ⟨h.make hp hopen, ⟨Nat.le_succ _, rfl, fun n hn => Function.update_of_ne hn.ne _ _,
    fun n hn => (htime n hn).le, rfl, rfl, rfl⟩, fun n hn => ?_, rfl, Nat.lt_succ_self _, ?_, htime, fun _ => ?_⟩
  · have hne : (σ.cell n).equality ≠ σ.next := by
      intro heq
      have hroot := h.equality_root n
      rw [heq, h.root_fresh _ le_rfl] at hroot
      exact h.root_ne_next hn.ne hroot.symm
    have hcell : (σ.make e τ ty).cell n = σ.cell n := Function.update_of_ne (h.root_ne_next hn.ne) _ _
    rw [Env.equality, hcell]
    exact Function.update_of_ne hne _ _
  · rw [h.getTy_make, if_pos rfl]
  · rw [h.time_make, if_pos rfl]

theorem le_foldl_max {α : Type} (f : α → ℕ) : ∀ (l : List α) (i : ℕ),
    i ≤ l.foldl (fun t' t => max (f t) t') i ∧ ∀ x ∈ l, f x ≤ l.foldl (fun t' t => max (f t) t') i
  | [], i => ⟨le_rfl, fun _ hx => absurd hx List.not_mem_nil⟩
  | a :: l, i => by
    obtain ⟨hi, hl⟩ := le_foldl_max f l (max (f a) i)
    refine ⟨(le_max_right _ _).trans hi, fun x hx => ?_⟩
    rcases List.mem_cons.mp hx with rfl | hx
    · exact (le_max_left _ _).trans hi
    · exact hl x hx

/-- **A new type is no earlier than its parts.** -/
theorem newTy_ends (h : Sound L σ) (hlt : ∀ c ∈ ty.components, c < σ.next) (hproper : ty.Proper)
    (hmade : ∀ g, ty.generic = some g → g.Made σ) :
    (Typ.newTy ty).Ends σ (fun t σ' => Made L σ σ.clock ty t σ') fun _ _ => True := by
  have hmake : ∀ {e τ}, (∀ g, ty.generic = some g → ∀ b, (g, b) ∈ L → b < τ) →
      (∀ c ∈ ty.components, Fits L σ τ c) → (ty.Open → τ = σ.clock) →
      (Typ.make e τ ty).Ends σ (fun t σ' => Made L σ σ.clock ty t σ') fun _ _ => True := by
    intro e τ hgen hfits hopen
    have hmk := made_make ty (e := e) h ⟨hlt, hproper, fun g hg => ⟨hmade g hg, hgen g hg⟩, hfits⟩
      fun ho => (hopen ho).le
    exact { hmk with le_time := fun ho => hopen ho ▸ hmk.le_time ho }
  simp only [Typ.newTy, ends_bind, ends_get]
  cases ty with
  | con c ts =>
    refine hmake (by rintro _ ⟨⟩) (fun c' hc' => (h.fits c').mono ?_) (by rintro ⟨⟩)
    exact (le_foldl_max σ.time ts _).2 c' hc'
  | flexRecord fields spine => exact hmake (by rintro _ ⟨⟩) (fun c _ => h.fits_clock le_rfl c) fun _ => rfl
  | genFlexRecord => exact trivial
  | overload => exact hmake (fun _ hc => by cases hc) (by rintro _ ⟨⟩) (by rintro ⟨⟩)
  | record r =>
    refine hmake (by rintro _ ⟨⟩) (fun c hc => (h.fits c).mono ?_) (by rintro ⟨⟩)
    exact (le_foldl_max σ.time r.range _).2 c hc
  | unknown => exact trivial
  | var a =>
    refine hmake (fun g hg b hb => ?_) (by rintro _ ⟨⟩) (by rintro ⟨⟩)
    obtain rfl := Option.some.inj hg
    exact (h.generalized _ b hb).2.2 a rfl

theorem unknown_ends {cg : Bool} {e : Equality} (h : Sound L σ) (hτ : τ ≤ σ.clock) :
    (Typ.unknown cg e τ).Ends σ (fun t σ' => (∃ u, Made L σ τ (.unknown u) t σ') ∧ σ'.time t = τ)
      fun _ _ => True := by
  simp only [Typ.unknown, ends_bind, ends_get, ends_modify]
  have h' : Sound L { σ with nextUnknown := σ.nextUnknown + 1 } :=
    h.congr rfl rfl rfl rfl le_rfl le_rfl le_rfl (fun _ _ => rfl) h.spines
  have hmk := made_make (τ := τ) (.unknown { canGeneralize := cg, id := σ.nextUnknown }) (e := e) h'
    ⟨(by rintro _ ⟨⟩), trivial, (by rintro _ ⟨⟩), (by rintro _ ⟨⟩)⟩ fun _ => hτ
  refine ⟨⟨_, hmk.sound, ⟨hmk.extends'.next, hmk.extends'.root, hmk.extends'.cells, hmk.extends'.time,
    hmk.extends'.clock, hmk.extends'.tycons, hmk.extends'.tyvars⟩, hmk.equalities, hmk.eq, hmk.lt,
    hmk.getTy, hmk.time, hmk.le_time⟩, ?_⟩
  exact (h'.time_make (n := σ.next)).trans (if_pos rfl)

/-! ## Types made of checked parts -/

/-- What is made of checked parts: nothing, if there is no violation, and else a type of these parts. -/
def Rebuilt (L : Generalized) (σ : Env) (bs : List Checked) (o : Option TypeId) (σ' : Env) : Prop :=
  (o = none → σ' = σ ∧ ∀ b ∈ bs, b.1 = false) ∧ ∀ t, o = some t → (∃ b ∈ bs, b.1 = true) ∧
    ∃ ty, Made L σ σ.clock ty t σ' ∧ ty.generic = none ∧ ∀ c ∈ ty.components, ∃ b ∈ bs, c = b.2

variable {bs : List Checked}

theorem rebuilt_ends (ty : Ty) {ok : Bool} {x : Elaborates TypeId} (h : Sound L σ) (hok : ok = bs.all fun b => !b.1)
    (hlt : ∀ b ∈ bs, b.2 < σ.next) (hproper : ty.Proper) (hgen : ty.generic = none)
    (hparts : ∀ c ∈ ty.components, ∃ b ∈ bs, c = b.2) (hx : x = Typ.newTy ty) :
    (if ok then pure none else some <$> x : Elaborates (Option TypeId)).Ends σ (Rebuilt L σ bs)
      fun _ _ => True := by
  subst hx
  cases ok with
  | true =>
    simp only [if_true, ends_pure]
    refine ⟨fun _ => ⟨rfl, fun b hb => ?_⟩, (by rintro _ ⟨⟩)⟩
    simpa using List.all_eq_true.mp hok.symm b hb
  | false =>
    simp only [Bool.false_eq_true, if_false, ends_map]
    have hlt' : ∀ c ∈ ty.components, c < σ.next := fun c hc => ?_
    · refine (newTy_ends h hlt' hproper fun g hg => absurd hg (hgen ▸ (by rintro ⟨⟩))).mono (fun t σ' hmade => ⟨(by rintro ⟨⟩), fun t' ht' => ?_⟩) fun _ _ _ => trivial
      obtain rfl := Option.some.inj ht'
      obtain ⟨b, hb, hb'⟩ := List.all_eq_false.mp hok.symm
      exact ⟨⟨b, hb, by simpa using hb'⟩, ty, hmade, hgen, hparts⟩
    · obtain ⟨b, hb, rfl⟩ := hparts c hc
      exact hlt b hb

theorem checkedCon_ends {c : Tycon} (h : Sound L σ) (hlt : ∀ b ∈ bs, b.2 < σ.next) (hc : c ≠ Typ.tupleTycon) :
    (checkedCon c bs).Ends σ (Rebuilt L σ bs) fun _ _ => True := by
  refine rebuilt_ends (.con c (bs.map Prod.snd)) h rfl hlt hc rfl (fun c' hc' => ?_) ?_
  · obtain ⟨b, hb, rfl⟩ := List.mem_map.mp hc'
    exact ⟨b, hb, rfl⟩
  · rw [Typ.con, if_neg hc]

/-- The fields of a record with the results for them. -/
theorem mem_checkedFields {fields : List (Field × Checked)} {c : TypeId}
    (hc : c ∈ (checkedFields fields).map Prod.snd) : ∃ b ∈ fields.map Prod.snd, c = b.2 := by
  simp only [checkedFields, List.map_map, List.mem_map] at hc
  obtain ⟨x, hx, rfl⟩ := hc
  exact ⟨x.2, List.mem_map_of_mem hx, rfl⟩

theorem map_fst_checkedFields (fields : List (Field × Checked)) :
    (checkedFields fields).map Prod.fst = fields.map Prod.fst := by
  simp [checkedFields]

theorem all_fields {fields : List (Field × Checked)} :
    (fields.all fun x => !x.2.1) = (fields.map Prod.snd).all fun b => !b.1 := by
  simp [List.all_map, Function.comp_def]

theorem checkedFlexRecord_ends {fields : List (Field × Checked)} {spine : Spine} (h : Sound L σ)
    (hlt : ∀ b ∈ fields.map Prod.snd, b.2 < σ.next) (hnodup : (fields.map Prod.fst).Nodup) :
    (checkedFlexRecord fields spine).Ends σ (Rebuilt L σ (fields.map Prod.snd)) fun _ _ => True :=
  rebuilt_ends (.flexRecord (checkedFields fields) spine) h all_fields hlt
    (by rwa [Ty.Proper, map_fst_checkedFields]) rfl (fun _ hc => mem_checkedFields hc) rfl

theorem checkedRecord_ends {r : Srecord Checked} (h : Sound L σ) (hlt : ∀ b ∈ r.range, b.2 < σ.next)
    (hnodup : (r.toVector.map Prod.fst).Nodup) (hlen : ∀ v, r = .tuple v → v.length ≠ 1) :
    (checkedRecord r).Ends σ (Rebuilt L σ r.range) fun _ _ => True := by
  cases r with
  | tuple v =>
    have htuple : Typ.tuple (v.map Prod.snd) = Typ.newTy (.record (.tuple (v.map Prod.snd))) := by
      rcases v with - | ⟨a, - | ⟨b, v⟩⟩
      · rfl
      · exact absurd rfl (hlen [a] rfl)
      · rfl
    refine rebuilt_ends (.record (.tuple (v.map Prod.snd))) h rfl hlt
      ⟨Srecord.nodup_tuple _, fun w hw => ?_⟩ rfl (fun c hc => ?_) htuple
    · rw [← Srecord.tuple.inj hw, List.length_map]
      exact hlen v rfl
    · obtain ⟨b, hb, rfl⟩ := List.mem_map.mp hc
      exact ⟨b, hb, rfl⟩
  | record v =>
    refine rebuilt_ends (.record (.fromVector (checkedFields v))) h all_fields hlt
      (proper_fromVector (by rwa [map_fst_checkedFields])) rfl (fun c hc => ?_) rfl
    exact mem_checkedFields (Srecord.mem_range_fromVector.mp hc)

theorem Rebuilt.congr {bs' : List Checked} {o : Option TypeId} (h : Rebuilt L σ bs o σ')
    (hbs : ∀ b, b ∈ bs ↔ b ∈ bs') : Rebuilt L σ bs' o σ' := by
  refine ⟨fun ho => ⟨(h.1 ho).1, fun b hb => (h.1 ho).2 b ((hbs b).mpr hb)⟩, fun t ht => ?_⟩
  obtain ⟨⟨b, hb, hb'⟩, ty, hmade, hgen, hparts⟩ := h.2 t ht
  refine ⟨⟨b, (hbs b).mp hb, hb'⟩, ty, hmade, hgen, fun c hc => ?_⟩
  obtain ⟨b, hb, rfl⟩ := hparts c hc
  exact ⟨b, (hbs b).mp hb, rfl⟩

/-- The parts of a flexible record, checked. -/
theorem checkedFlexRecord_zip {fields : List (Field × TypeId)} {spine : Spine} (h : Sound L σ)
    (hlt : ∀ b ∈ bs, b.2 < σ.next) (hproper : (Ty.flexRecord fields spine).Proper)
    (hlen : fields.length = bs.length) :
    (checkedFlexRecord ((fields.map Prod.fst).zip bs).reverse spine).Ends σ (Rebuilt L σ bs)
      fun _ _ => True := by
  have hsnd : ((fields.map Prod.fst).zip bs).reverse.map Prod.snd = bs.reverse := by
    rw [List.map_reverse, List.map_snd_zip (by simp [hlen])]
  have hfst : (((fields.map Prod.fst).zip bs).reverse.map Prod.fst).Nodup := by
    rw [List.map_reverse, List.map_fst_zip (by simp [hlen]), List.nodup_reverse]
    exact hproper
  refine (checkedFlexRecord_ends h (fun b hb => hlt b (by simpa [hsnd] using hb)) hfst).mono (fun o σ' ho => ?_)
    fun _ _ _ => trivial
  exact ho.congr (by simp [hsnd])

/-- The parts of a record, checked. -/
theorem checkedRecord_withRange {r : Srecord TypeId} (h : Sound L σ) (hlt : ∀ b ∈ bs, b.2 < σ.next)
    (hproper : (Ty.record r).Proper) (hlen : r.range.length = bs.length) :
    (checkedRecord (r.withRange bs)).Ends σ (Rebuilt L σ bs) fun _ _ => True := by
  have hrange := Srecord.range_withRange hlen.symm
  have hends := checkedRecord_ends (r := r.withRange bs) h (hrange.symm ▸ hlt) ?_ ?_
  · exact hends.mono (fun o σ' ho => hrange ▸ ho) fun _ _ _ => trivial
  · cases r with
    | tuple v => exact Srecord.nodup_tuple bs
    | record v =>
      have hlen' : v.length ≤ bs.length := by simpa [Srecord.range] using hlen.le
      simp only [Srecord.withRange, Srecord.toVector]
      rw [List.map_fst_zip (by simpa using hlen')]
      exact hproper.1
  · intro w hw
    cases r with
    | tuple v => exact Srecord.tuple.inj hw ▸ hlen ▸ hproper.2 v rfl
    | record v => exact nomatch hw

/-! ## Making a type no later than a bound -/

/-- What is inside of a type, of the types there were at first, is inside of another one. -/
def From (base : TypeId) (σ : Env) (n t : TypeId) : Prop :=
  ∀ x < base, σ.graph.Reach t x → σ.graph.Reach n x

variable {base : TypeId}

theorem From.extends (h : From base σ n t) (he : Extends σ σ') (hwf : σ.Wf) (hn : n < σ.next) (ht : t < σ.next) :
    From base σ' n t := fun x hx hr => (he.reach hwf hn).mpr (h x hx ((he.reach hwf ht).mp hr))

/-- A type that is made of parts that come from a type comes from it. -/
theorem Made.from (hmade : Made L σ τ ty t σ') (hwf : σ.Wf) (hbase : base ≤ σ.next) (hn : n < σ.next)
    (hparts : ∀ c ∈ ty.components, c < σ.next ∧ From base σ n c) : From base σ' n t := by
  intro x hx hr
  have hroot : σ'.root t = σ.next := by rw [hmade.extends'.root, hmade.eq, hwf.root_fresh _ le_rfl]
  cases hr with
  | here heq =>
    have hlt := hwf.root_lt x (hx.trans_le hbase)
    rw [← congrFun hmade.extends'.root x, show σ'.root x = σ.next from heq.symm.trans hroot] at hlt
    exact absurd hlt (lt_irrefl _)
  | @inside _ _ c hc hr =>
    rw [components_graph, hmade.getTy] at hc
    obtain ⟨hlt, hfrom⟩ := hparts c hc
    exact hfrom.extends hmade.extends' hwf hn hlt x hx hr

namespace CheckTime

/-- What the walk finds out about a type. -/
def Found (bound : Time) (base : TypeId) (n : TypeId) (b : Checked) (σ : Env) : Prop :=
  n < σ.next ∧ b.2 < σ.next ∧ σ.time b.2 ≤ bound ∧ (b.1 = false → σ.root b.2 = σ.root n) ∧ From base σ n b.2

/-- A type that is later than the bound. -/
def Late (bound : Time) (n : TypeId) (σ : Env) : Prop := n < σ.next ∧ bound < σ.time n

/-- What is no later than the bound keeps its time. -/
def Goes (bound : Time) (σ σ' : Env) : Prop :=
  Extends σ σ' ∧ ∀ n < σ.next, σ.time n ≤ bound → σ'.time n = σ.time n

/-- What is made in the place of a type, or that nothing is. -/
def Replaces (L : Generalized) (bound : Time) (base : TypeId) (n : TypeId) (σ : Env) (o : Option TypeId)
    (σ' : Env) : Prop :=
  (o = none → σ' = σ ∧ Placed L σ bound (σ.getTy n)) ∧ ∀ t, o = some t → ∃ ty, Made L σ bound ty t σ' ∧
    ty.generic = none ∧ ∀ c ∈ ty.components, c < σ.next ∧ σ.time c ≤ bound ∧ From base σ n c

theorem wrap_ends {x : Elaborates (Option TypeId)} (h : Sound L σ) (hbase : base ≤ σ.next)
    (hlate : Late bound n σ) (hx : x.Ends σ (Replaces L bound base n σ) fun _ _ => True) :
    (wrap bound n x).Ends σ (fun b σ' => Sound L σ' ∧ Goes bound σ σ' ∧ Found bound base n b σ' ∧
      ∀ m, σ.root m ≠ σ.root n → Late bound m σ → Late bound m σ') fun _ _ => True := by
  obtain ⟨hn, hlt⟩ := hlate
  simp only [wrap, ends_bind]
  refine hx.mono (fun o σ₁ => ?_) fun _ _ _ => trivial
  rintro ⟨hnone, hsome⟩
  cases o with
  | none =>
    obtain ⟨rfl, hp⟩ := hnone rfl
    simp only [ends_bind, ends_modify, ends_pure]
    have htime : ∀ m, (σ₁.setTime n bound).time m = if σ₁.root m = σ₁.root n then bound else σ₁.time m :=
      fun m => h.time_setTime
    refine ⟨h.setTime hp fun _ => hlt.le, ⟨⟨le_rfl, rfl, fun _ _ => rfl, fun m _ => ?_, rfl, rfl, rfl⟩,
      fun m _ hle => ?_⟩, ⟨hn, hn, ?_, fun _ => rfl, fun x _ hr => hr⟩, fun m hm hlate => ⟨hlate.1, ?_⟩⟩
    · rw [htime]
      split_ifs with hm
      · exact time_congr hm ▸ hlt.le
      · exact le_rfl
    · rw [htime, if_neg]
      exact fun heq => absurd (time_congr heq ▸ hle) (not_le.mpr hlt)
    · rw [htime, if_pos rfl]
    · rw [htime, if_neg hm]
      exact hlate.2
  | some t =>
    obtain ⟨ty, hmade, hgen, hparts⟩ := hsome t rfl
    simp only [ends_bind, ends_modify, ends_pure]
    have hsound := hmade.sound
    have htime : ∀ m, (σ₁.setTime t bound).time m = if σ₁.root m = σ₁.root t then bound else σ₁.time m :=
      fun m => hsound.time_setTime
    have hold : ∀ m < σ.next, (σ₁.setTime t bound).time m = σ.time m := by
      intro m hm
      rw [htime, if_neg, hmade.time m hm]
      rw [hmade.extends'.root, hmade.eq, h.root_fresh _ le_rfl]
      exact (h.root_lt m hm).ne
    have hp : Placed L σ₁ bound (σ₁.getTy t) := by
      refine ⟨hsound.component_lt t, hsound.proper t, fun g hg => ?_, fun c hc => ?_⟩
      · rw [hmade.getTy, hgen] at hg
        cases hg
      · rw [hmade.getTy] at hc
        obtain ⟨hlt, hle, -⟩ := hparts c hc
        exact (hsound.fits c).mono (hmade.time c hlt ▸ hle)
    have he := hmade.extends'
    refine ⟨hsound.setTime hp fun ho => hmade.le_time (hmade.getTy ▸ ho),
      ⟨⟨he.next, he.root, he.cells, fun m hm => (hold m hm).le, he.clock, he.tycons, he.tyvars⟩,
        fun m hm _ => hold m hm⟩,
      ⟨hn.trans_le he.next, hmade.lt, ?_, (by rintro ⟨⟩), ?_⟩, fun m _ hlate => ⟨hlate.1.trans_le he.next, ?_⟩⟩
    · rw [htime, if_pos rfl]
    · exact hmade.from h.toWf hbase hn fun c hc => ⟨(hparts c hc).1, (hparts c hc).2.2⟩
    · rw [hold m hlate.1]
      exact hlate.2

theorem Goes.refl (σ : Env) : Goes bound σ σ := ⟨.refl σ, fun _ _ _ => rfl⟩

theorem Goes.trans (h : Goes bound σ σ') (h' : Goes bound σ' σ'') : Goes bound σ σ'' := by
  refine ⟨h.1.trans h'.1, fun n hn hle => ?_⟩
  have heq := h.2 n hn hle
  exact (h'.2 n (hn.trans_le h.1.next) (heq ▸ hle)).trans heq

variable {o : Option TypeId}

theorem exists_found (hbs : List.Forall₂ (Found bound base · · σ) (σ.getTy n).components bs) {b : Checked}
    (hb : b ∈ bs) : ∃ c ∈ (σ.getTy n).components, Found bound base c b σ := by
  obtain ⟨i, hi, rfl⟩ := List.mem_iff_getElem.mp hb
  have hi' : i < (σ.getTy n).components.length := hbs.length_eq ▸ hi
  exact ⟨_, List.getElem_mem hi', hbs.get hi' hi⟩

theorem found_of_part (hbs : List.Forall₂ (Found bound base · · σ) (σ.getTy n).components bs) {c : TypeId}
    (hc : c ∈ (σ.getTy n).components) : ∃ b ∈ bs, Found bound base c b σ := by
  obtain ⟨i, hi, rfl⟩ := List.mem_iff_getElem.mp hc
  have hi' : i < bs.length := hbs.length_eq ▸ hi
  exact ⟨_, List.getElem_mem hi', hbs.get hi hi'⟩

/-- What is made of the parts takes the place of the type. -/
theorem replaces_of_rebuilt (h : Sound L σ) (hbound : bound ≤ σ.clock)
    (hbs : List.Forall₂ (Found bound base · · σ) (σ.getTy n).components bs) (hgen : (σ.getTy n).generic = none)
    (hr : Rebuilt L σ bs o σ') : Replaces L bound base n σ o σ' := by
  refine ⟨fun ho => ⟨(hr.1 ho).1, h.component_lt n, h.proper n, fun g hg => ?_, fun c hc => ?_⟩, fun t ht => ?_⟩
  · exact nomatch hgen.symm.trans hg
  · obtain ⟨b, hb, -, -, hle, hroot, -⟩ := found_of_part hbs hc
    exact (h.fits c).mono (time_congr (hroot ((hr.1 ho).2 b hb)) ▸ hle)
  · obtain ⟨-, ty, hmade, hgen, hparts⟩ := hr.2 t ht
    refine ⟨ty, { hmade with le_time := fun ho => hbound.trans (hmade.le_time ho) }, hgen, fun c hc => ?_⟩
    obtain ⟨b, hb, rfl⟩ := hparts c hc
    obtain ⟨c', hc', -, hlt, hle, -, hfrom⟩ := exists_found hbs hb
    exact ⟨hlt, hle, fun x hx hr => .inside hc' (hfrom x hx hr)⟩

theorem fresh_ends (h : Sound L σ) (hbound : bound ≤ σ.clock) :
    (some <$> fresh bound).Ends σ (Replaces L bound base n σ) fun _ _ => True := by
  rw [ends_map]
  refine (unknown_ends h hbound).mono (fun t σ' => ?_) fun _ _ _ => trivial
  rintro ⟨⟨u, hmade⟩, _⟩
  refine ⟨(by rintro ⟨⟩), fun t' ht' => ?_⟩
  obtain rfl := Option.some.inj ht'
  exact ⟨_, hmade, rfl, (by rintro _ ⟨⟩)⟩

theorem placed_of_leaf (h : Sound L σ) (hn : (σ.getTy n).components = [])
    (hgen : ∀ g, (σ.getTy n).generic = some g → ∀ b, (g, b) ∈ L → b < bound) :
    Placed L σ bound (σ.getTy n) :=
  ⟨h.component_lt n, h.proper n, fun g hg => ⟨h.made n g hg, hgen g hg⟩, fun _ hc => absurd (hn ▸ hc) nofun⟩

/-- **The walk makes types no later than the bound.** -/
theorem walks : Walk id (walk bound) (fun σ => Sound L σ ∧ bound ≤ σ.clock ∧ base ≤ σ.next) (Goes bound)
    (Found bound base) (Late bound) where
  wf h := h.1.toWf
  refl := Goes.refl
  trans _ _ _ := Goes.trans
  root h := h.1.root
  next h := h.1.next
  mono := by
    rintro n b σ σ' ⟨h, -, -⟩ ⟨hn, hb, hle, hroot, hfrom⟩ ⟨he, -⟩
    refine ⟨hn.trans_le he.next, hb.trans_le he.next, (he.time _ hb).trans hle, fun hfalse => ?_,
      hfrom.extends he h.toWf hn hb⟩
    rw [he.root]
    exact hroot hfalse
  congr := by
    rintro n m b σ ⟨h, -, -⟩ heq ⟨hn, hb, hle, hroot, hfrom⟩
    exact ⟨h.lt_of_root heq hn, hb, hle, fun hfalse => (hroot hfalse).trans heq,
      fun x hx hr => (hfrom x hx hr).congr_left heq⟩
  congrQ := by
    rintro n m σ ⟨h, -, -⟩ heq ⟨hn, hlt⟩
    exact ⟨h.lt_of_root heq hn, time_congr heq ▸ hlt⟩
  guard := by
    rintro n σ hI hn
    simp only [walk, guard, ends_bind, ends_get]
    split_ifs with hle
    · refine ⟨hI, Goes.refl σ, fun _ h => h, fun b hb => ?_, (by rintro ⟨⟩)⟩
      obtain rfl := Option.some.inj hb
      exact ⟨hn, hn, hle, fun _ => rfl, fun _ _ hr => hr⟩
    · exact ⟨hI, Goes.refl σ, fun _ h => h, (by rintro _ ⟨⟩), fun _ => ⟨hn, not_le.mp hle⟩⟩
  apply := by
    rintro n bs σ₀ σ ⟨h₀, -, -⟩ ⟨h, hbound, hbase⟩ ⟨he, -⟩ hn₀ hlate - hbs
    have hI : ∀ σ', Sound L σ' → Goes bound σ σ' → Sound L σ' ∧ bound ≤ σ'.clock ∧ base ≤ σ'.next :=
      fun σ' h' he' => ⟨h', he'.1.clock ▸ hbound, hbase.trans he'.1.next⟩
    rw [id, ← he.getTy h₀.toWf hn₀] at hbs ⊢
    have hlt : ∀ b ∈ bs, b.2 < σ.next := fun b hb => by
      obtain ⟨c, -, -, hlt, -⟩ := exists_found hbs hb
      exact hlt
    -- what is made in the place of the type, whatever it is
    have hwrap : ∀ x : Elaborates (Option TypeId), x.Ends σ (Replaces L bound base n σ) (fun _ _ => True) →
        (wrap bound n x).Ends σ (fun b σ' => (Sound L σ' ∧ bound ≤ σ'.clock ∧ base ≤ σ'.next) ∧ Goes bound σ σ' ∧
          Found bound base n b σ' ∧ ∀ m, σ.root m ≠ σ.root n → Late bound m σ → Late bound m σ')
          fun _ _ => True := by
      intro x hx
      refine (wrap_ends h hbase hlate hx).mono (fun b σ' => ?_) fun _ _ _ => trivial
      rintro ⟨h', he', hb⟩
      exact ⟨hI σ' h' he', he', hb⟩
    have hleaf : (σ.getTy n).components = [] →
        (∀ g, (σ.getTy n).generic = some g → ∀ b, (g, b) ∈ L → b < bound) →
        (pure none : Elaborates (Option TypeId)).Ends σ (Replaces L bound base n σ) fun _ _ => True :=
      fun hnil hgen => ⟨fun _ => ⟨rfl, placed_of_leaf h hnil hgen⟩, (by rintro _ ⟨⟩)⟩
    have hproper := h.proper n
    cases hty : σ.getTy n with
    | con c ts =>
      rw [hty] at hproper
      refine hwrap _ ?_
      simp only [con, ends_bind, ends_get]
      split_ifs
      · refine (checkedCon_ends h hlt hproper).mono (fun o σ' ho => ?_) fun _ _ _ => trivial
        exact replaces_of_rebuilt h hbound hbs (hty ▸ rfl) ho
      · exact fresh_ends h hbound
    | flexRecord fields spine =>
      have hlen : fields.length = bs.length := by simpa [hty, Ty.components] using hbs.length_eq
      refine hwrap _ ((checkedFlexRecord_zip h hlt (hty ▸ hproper) hlen).mono (fun o σ' ho => ?_)
        fun _ _ _ => trivial)
      exact replaces_of_rebuilt h hbound hbs (hty ▸ rfl) ho
    | genFlexRecord => exact trivial
    | overload => exact hwrap _ (hleaf (hty ▸ rfl) (hty ▸ (by rintro _ ⟨⟩)))
    | record r =>
      have hlen : r.range.length = bs.length := by simpa [hty, Ty.components] using hbs.length_eq
      refine hwrap _ ((checkedRecord_withRange h hlt (hty ▸ hproper) hlen).mono (fun o σ' ho => ?_)
        fun _ _ _ => trivial)
      exact replaces_of_rebuilt h hbound hbs (hty ▸ rfl) ho
    | unknown => exact hwrap _ (hleaf (hty ▸ rfl) (hty ▸ (by rintro _ ⟨⟩)))
    | var a =>
      refine hwrap _ ?_
      simp only [var, ends_bind, ends_get]
      split_ifs with hle
      · refine hleaf (hty ▸ rfl) fun g hg b hb => ?_
        rw [hty] at hg
        obtain rfl := Option.some.inj hg
        exact ((h.generalized _ b hb).2.2 a rfl).trans_le hle
      · exact fresh_ends h hbound
  recursive _ _ := trivial

end CheckTime

/-- **A type is made no later than a bound**, or there is another type that is and comes from it. -/
theorem checkTime_ends {k : ℕ} (h : Sound L σ) (hn : n < σ.next) (hbound : bound ≤ σ.clock) :
    (checkTime k n bound).Ends σ (fun o σ' => Sound L σ' ∧ CheckTime.Goes bound σ σ' ∧
      (o = none → σ'.time n ≤ bound) ∧
      ∀ t, o = some t → t < σ'.next ∧ σ'.time t ≤ bound ∧ From σ.next σ' n t) fun _ _ => True := by
  simp only [checkTime, ends_bind, ends_get]
  split_ifs with hle
  · exact ⟨h, CheckTime.Goes.refl σ, fun _ => hle, (by rintro _ ⟨⟩)⟩
  · simp only [ends_bind]
    refine (CheckTime.walks.hom_ends (k := k) ⟨h, hbound, le_refl σ.next⟩ hn).mono (fun b σ' => ?_)
      fun _ _ _ => trivial
    rintro ⟨⟨h', -, -⟩, he, -, hlt, hle, hroot, hfrom⟩
    obtain ⟨b, t⟩ := b
    cases b with
    | false => exact ⟨h', he, fun _ => time_congr (hroot rfl) ▸ hle, (by rintro _ ⟨⟩)⟩
    | true =>
      refine ⟨h', he, (by rintro ⟨⟩), fun t' ht' => ?_⟩
      obtain rfl := Option.some.inj ht'
      exact ⟨hlt, hle, hfrom⟩

/-! ## Making an equality type -/

/-- A type that stands in the way of equality itself. -/
def Bars (σ : Env) (n : TypeId) : Prop :=
  match σ.getTy n with
  | .con c _ => σ.equality n ≠ .true ∧ (σ.tycons c).admitsEquality = .never
  | .overload _ => σ.equality n ≠ .true
  | .var _ => σ.equality n ≠ .true
  | .unknown _ => σ.equality n = .false
  | _ => False

/-- **A type that cannot be made an equality type**: it stands in the way itself, or a part of it does. -/
inductive Refuses (σ : Env) : TypeId → Prop
  | here {n : TypeId} : Bars σ n → Refuses σ n
  | inside {n c : TypeId} : σ.equality n ≠ .true →
      (∀ c ts, σ.getTy n = .con c ts → (σ.tycons c).admitsEquality = .sometimes) →
      c ∈ (σ.getTy n).components → Refuses σ c → Refuses σ n

theorem Bars.congr (hb : Bars σ n) (heq : σ.root n = σ.root m) : Bars σ m := by
  unfold Bars at hb ⊢
  rwa [← getTy_congr heq, ← equality_congr heq]

theorem Refuses.congr (hr : Refuses σ n) (heq : σ.root n = σ.root m) : Refuses σ m := by
  cases hr with
  | here hb => exact .here (Bars.congr hb heq)
  | inside hne hs hc hr =>
    rw [getTy_congr heq] at hs hc
    exact .inside (equality_congr heq ▸ hne) hs hc hr

namespace CheckEquality

/-- The types at first, and what the walk has changed of them. -/
structure Since (σ₀ σ : Env) : Prop extends Keeps σ₀ σ where
  equality : ∀ n < σ₀.next, σ.equality n = σ₀.equality n ∨ σ.equality n = .true ∧ ¬ Bars σ₀ n

variable {σ₀ : Env}

/-- What the walk finds out about a type. -/
def Found (σ₀ : Env) (n : TypeId) (b : Checked) (σ : Env) : Prop :=
  n < σ.next ∧ b.2 < σ.next ∧ (b.1 = false → σ.root b.2 = σ.root n) ∧ From σ₀.next σ n b.2 ∧
    (n < σ₀.next → (b.1 = false → ¬ Bars σ₀ n) ∧
      (b.1 = true → Refuses σ₀ n ∧ (Bars σ₀ n → ∃ u, σ.getTy b.2 = .unknown u)))

/-- What is made in the place of a type, or that nothing is. -/
def Replaces (L : Generalized) (σ₀ : Env) (n : TypeId) (σ : Env) (o : Option TypeId) (σ' : Env) : Prop :=
  (o = none → σ' = σ ∧ (n < σ₀.next → ¬ Bars σ₀ n)) ∧ ∀ t, o = some t → ∃ τ ty, Made L σ τ ty t σ' ∧
    (∀ c ∈ ty.components, c < σ.next ∧ From σ₀.next σ n c) ∧
    (n < σ₀.next → Refuses σ₀ n ∧ (Bars σ₀ n → ∃ u, ty = .unknown u))

theorem Since.refl (σ : Env) : Since σ σ := ⟨.refl σ, fun _ _ => .inl rfl⟩

theorem Since.equality_true (hs : Since σ₀ σ) (hn : n < σ₀.next) (h : σ₀.equality n = .true) :
    σ.equality n = .true :=
  (hs.equality n hn).elim (·.trans h) (·.1)

theorem Since.equality_false (hs : Since σ₀ σ) (hn : n < σ₀.next) (h : σ.equality n = .false) :
    σ₀.equality n = .false :=
  (hs.equality n hn).elim (·.symm.trans h) fun ht => nomatch ht.1.symm.trans h

/-- What has been made an equality type was not in the way. -/
theorem Since.not_bars (hs : Since σ₀ σ) (hn : n < σ₀.next) (h : σ.equality n = .true) : ¬ Bars σ₀ n := by
  rcases hs.equality n hn with heq | ⟨-, hb⟩
  · intro hb
    unfold Bars at hb
    rw [← heq, h] at hb
    split at hb
    · exact hb.1 rfl
    · exact hb rfl
    · exact hb rfl
    · exact nomatch hb
    · exact hb
  · exact hb

theorem Since.made {t : TypeId} (hs : Since σ₀ σ) (hm : Made L σ τ ty t σ') : Since σ₀ σ' := by
  refine ⟨hs.toKeeps.trans ⟨hm.extends', hm.time⟩, fun n hn => ?_⟩
  rw [hm.equalities n (hn.trans_le hs.next)]
  exact hs.equality n hn

/-- Made an equality type. -/
theorem Since.setEquality (hs : Since σ₀ σ) (h : σ.Wf) (h₀ : σ₀.Wf) (ht : t < σ₀.next → ¬ Bars σ₀ t) :
    Since σ₀ (σ.setEquality t .true) := by
  refine ⟨hs.toKeeps.trans ⟨⟨le_rfl, rfl, fun _ _ => rfl, fun _ _ => le_rfl, rfl, rfl, rfl⟩, fun _ _ => rfl⟩,
    fun n hn => ?_⟩
  rw [h.equality_setEquality]
  split_ifs with heq
  · have heq₀ : σ₀.root n = σ₀.root t := by
      rw [← hs.root]
      exact heq
    exact .inr ⟨rfl, fun hb => ht (h₀.lt_of_root heq₀ hn) (Bars.congr hb heq₀)⟩
  · exact hs.equality n hn

theorem wrap_ends {x : Elaborates (Option TypeId)} (h₀ : σ₀.Wf) (h : Sound L σ) (hs : Since σ₀ σ)
    (hn : n < σ.next) (hx : x.Ends σ (Replaces L σ₀ n σ) fun _ _ => True) :
    (wrap n x).Ends σ (fun b σ' => (Sound L σ' ∧ Since σ₀ σ') ∧ Keeps σ σ' ∧ Found σ₀ n b σ')
      fun _ _ => True := by
  simp only [wrap, ends_bind]
  refine hx.mono (fun o σ₁ => ?_) fun _ _ _ => trivial
  rintro ⟨hnone, hsome⟩
  cases o with
  | none =>
    obtain ⟨rfl, hbars⟩ := hnone rfl
    simp only [ends_bind, ends_modify, ends_pure]
    exact ⟨⟨h.congr rfl rfl rfl rfl le_rfl le_rfl le_rfl (fun _ _ => rfl) h.spines,
      hs.setEquality h.toWf h₀ hbars⟩,
      ⟨⟨le_rfl, rfl, fun _ _ => rfl, fun _ _ => le_rfl, rfl, rfl, rfl⟩, fun _ _ => rfl⟩,
      ⟨hn, hn, fun _ => rfl, fun _ _ hr => hr, fun hn₀ => ⟨fun _ => hbars hn₀, (by rintro ⟨⟩)⟩⟩⟩
  | some t =>
    obtain ⟨τ, ty, hmade, hparts, hrefuses⟩ := hsome t rfl
    simp only [ends_pure]
    refine ⟨⟨hmade.sound, hs.made hmade⟩, ⟨hmade.extends', hmade.time⟩,
      ⟨hn.trans_le hmade.extends'.next, hmade.lt, (by rintro ⟨⟩), hmade.from h.toWf hs.next hn hparts,
        fun hn₀ => ⟨(by rintro ⟨⟩), fun _ => ?_⟩⟩⟩
    rw [hmade.getTy]
    exact hrefuses hn₀

/-- A type that the walk goes into. -/
def Passes (σ₀ : Env) (n : TypeId) (_ : Env) : Prop :=
  n < σ₀.next → σ₀.equality n ≠ .true ∧
    ∀ c ts, σ₀.getTy n = .con c ts → (σ₀.tycons c).admitsEquality = .sometimes

theorem fresh_ends (h : Sound L σ) (hbars : n < σ₀.next → Bars σ₀ n) :
    (some <$> fresh).Ends σ (Replaces L σ₀ n σ) fun _ _ => True := by
  simp only [ends_map, fresh, ends_bind, ends_get]
  refine (unknown_ends h le_rfl).mono (fun t σ' => ?_) fun _ _ _ => trivial
  rintro ⟨⟨u, hmade⟩, _⟩
  refine ⟨(by rintro ⟨⟩), fun t' ht' => ?_⟩
  obtain rfl := Option.some.inj ht'
  exact ⟨_, _, hmade, (by rintro _ ⟨⟩), fun hn => ⟨.here (hbars hn), fun _ => ⟨u, rfl⟩⟩⟩

theorem exists_found (hbs : List.Forall₂ (Found σ₀ · · σ) (σ.getTy n).components bs) {b : Checked}
    (hb : b ∈ bs) : ∃ c ∈ (σ.getTy n).components, Found σ₀ c b σ := by
  obtain ⟨i, hi, rfl⟩ := List.mem_iff_getElem.mp hb
  have hi' : i < (σ.getTy n).components.length := hbs.length_eq ▸ hi
  exact ⟨_, List.getElem_mem hi', hbs.get hi' hi⟩

/-- What is made of the parts takes the place of the type. -/
theorem replaces_of_rebuilt {o : Option TypeId} (h₀ : σ₀.Wf) (hs : Since σ₀ σ) (hpasses : Passes σ₀ n σ)
    (hbars : n < σ₀.next → ¬ Bars σ₀ n) (hbs : List.Forall₂ (Found σ₀ · · σ) (σ.getTy n).components bs)
    (hr : Rebuilt L σ bs o σ') : Replaces L σ₀ n σ o σ' := by
  refine ⟨fun ho => ⟨(hr.1 ho).1, hbars⟩, fun t ht => ?_⟩
  obtain ⟨⟨b, hb, hb'⟩, ty, hmade, -, hparts⟩ := hr.2 t ht
  refine ⟨_, ty, hmade, fun c hc => ?_, fun hn => ⟨?_, fun hbar => absurd hbar (hbars hn)⟩⟩
  · obtain ⟨b, hb, rfl⟩ := hparts c hc
    obtain ⟨c', hc', -, hlt, -, hfrom, -⟩ := exists_found hbs hb
    exact ⟨hlt, fun x hx hr => .inside hc' (hfrom x hx hr)⟩
  · obtain ⟨c, hc, -, -, -, -, hrefuses⟩ := exists_found hbs hb
    rw [hs.toExtends.getTy h₀ hn] at hc
    exact .inside (hpasses hn).1 (hpasses hn).2 hc ((hrefuses (h₀.component_lt n c hc)).2 hb').1

/-- **The walk makes equality types.** -/
theorem walks (h₀ : σ₀.Wf) : Walk id walk (fun σ => Sound L σ ∧ Since σ₀ σ) Keeps (Found σ₀) (Passes σ₀) where
  wf h := h.1.toWf
  refl := Keeps.refl
  trans _ _ _ := Keeps.trans
  root h := h.root
  next h := h.next
  mono := by
    rintro n b σ σ' ⟨h, -⟩ ⟨hn, hb, hroot, hfrom, hrefuses⟩ he
    refine ⟨hn.trans_le he.next, hb.trans_le he.next, fun hfalse => ?_, hfrom.extends he.toExtends h.toWf hn hb,
      fun hn₀ => ?_⟩
    · rw [he.root]
      exact hroot hfalse
    · rw [he.toExtends.getTy h.toWf hb]
      exact hrefuses hn₀
  congr := by
    rintro n m b σ ⟨h, hs⟩ heq ⟨hn, hb, hroot, hfrom, hrefuses⟩
    have heq₀ : σ₀.root n = σ₀.root m := by
      rw [← hs.root]
      exact heq
    refine ⟨h.lt_of_root heq hn, hb, fun hfalse => (hroot hfalse).trans heq,
      fun x hx hr => (hfrom x hx hr).congr_left heq, fun hm => ?_⟩
    obtain ⟨hfalse, htrue⟩ := hrefuses (h₀.lt_of_root heq₀.symm hm)
    refine ⟨fun hf hbar => hfalse hf (Bars.congr hbar heq₀.symm), fun ht => ?_⟩
    obtain ⟨hr, hu⟩ := htrue ht
    exact ⟨hr.congr heq₀, fun hbar => hu (Bars.congr hbar heq₀.symm)⟩
  congrQ := by
    rintro n m σ ⟨h, hs⟩ heq hp hm
    have heq₀ : σ₀.root n = σ₀.root m := by
      rw [← hs.root]
      exact heq
    rw [← equality_congr heq₀, ← getTy_congr heq₀]
    exact hp (h₀.lt_of_root heq₀.symm hm)
  guard := by
    rintro n σ ⟨h, hs⟩ hn
    -- nothing is in the way at the type itself
    have hnone : (n < σ₀.next → ¬ Bars σ₀ n) → (pure (some (false, n)) : Elaborates (Option Checked)).Ends σ
        (fun o σ' => (Sound L σ' ∧ Since σ₀ σ') ∧ Keeps σ σ' ∧ (∀ m, Passes σ₀ m σ → Passes σ₀ m σ') ∧
          (∀ b, o = some b → Found σ₀ n b σ') ∧ (o = none → Passes σ₀ n σ')) fun _ _ => True := by
      refine fun hbars => ⟨⟨h, hs⟩, .refl σ, fun _ hp => hp, fun b hb => ?_, (by rintro ⟨⟩)⟩
      obtain rfl := Option.some.inj hb
      exact ⟨hn, hn, fun _ => rfl, fun _ _ hr => hr, fun hn₀ => ⟨fun _ => hbars hn₀, (by rintro ⟨⟩)⟩⟩
    have hgetTy : n < σ₀.next → σ.getTy n = σ₀.getTy n := hs.toExtends.getTy h₀
    simp only [walk, guard, ends_bind, ends_get]
    split_ifs with he
    · exact hnone fun hn₀ => hs.not_bars hn₀ he
    · have hne : n < σ₀.next → σ₀.equality n ≠ .true := fun hn₀ ht => he (hs.equality_true hn₀ ht)
      cases hty : σ.getTy n with
      | con c ts =>
        dsimp only
        cases hadmits : (σ.tycons c).admitsEquality with
        | always =>
          refine hnone fun hn₀ hbar => ?_
          simp only [Bars, ← hgetTy hn₀, hty, ← hs.tycons, hadmits] at hbar
          cases hbar.2
        | sometimes =>
          refine ⟨⟨h, hs⟩, .refl σ, fun _ hp => hp, (by rintro _ ⟨⟩), fun _ hn₀ => ⟨hne hn₀, fun c' ts' hty' => ?_⟩⟩
          obtain ⟨rfl, -⟩ := Ty.con.inj (hty.symm.trans ((hgetTy hn₀).trans hty'))
          exact hs.tycons ▸ hadmits
        | never =>
          simp only [ends_bind, fresh, ends_get, ends_pure]
          refine (unknown_ends h le_rfl).mono (fun t σ' => ?_) fun _ _ _ => trivial
          rintro ⟨⟨u, hmade⟩, _⟩
          refine ⟨⟨hmade.sound, hs.made hmade⟩, ⟨hmade.extends', hmade.time⟩, fun _ hp => hp, fun b hb => ?_, (by rintro ⟨⟩)⟩
          obtain rfl := Option.some.inj hb
          refine ⟨hn.trans_le hmade.extends'.next, hmade.lt, (by rintro ⟨⟩), hmade.from h.toWf hs.next hn (by rintro _ ⟨⟩),
            fun hn₀ => ⟨(by rintro ⟨⟩), fun _ => ⟨.here ?_, fun _ => ⟨u, hmade.getTy⟩⟩⟩⟩
          simp only [Bars, ← hgetTy hn₀, hty]
          exact ⟨hne hn₀, hs.tycons ▸ hadmits⟩
      | _ =>
        refine ⟨⟨h, hs⟩, .refl σ, fun _ hp => hp, (by rintro _ ⟨⟩), fun _ hn₀ => ⟨hne hn₀, fun c' ts' hty' => ?_⟩⟩
        cases hty.symm.trans ((hgetTy hn₀).trans hty')
  apply := by
    rintro n bs σ₁ σ ⟨h₁, -⟩ ⟨h, hs⟩ he hn₁ hpasses - hbs
    rw [id, ← he.toExtends.getTy h₁.toWf hn₁] at hbs ⊢
    have hn : n < σ.next := hn₁.trans_le he.next
    have hgetTy : n < σ₀.next → σ.getTy n = σ₀.getTy n := hs.toExtends.getTy h₀
    have hlt : ∀ b ∈ bs, b.2 < σ.next := fun b hb => by
      obtain ⟨c, -, -, hlt, -⟩ := exists_found hbs hb
      exact hlt
    -- what is made in the place of the type, whatever it is
    have hwrap : ∀ x : Elaborates (Option TypeId), x.Ends σ (Replaces L σ₀ n σ) (fun _ _ => True) →
        (wrap n x).Ends σ (fun b σ' => (Sound L σ' ∧ Since σ₀ σ') ∧ Keeps σ σ' ∧ Found σ₀ n b σ' ∧
          ∀ m, σ.root m ≠ σ.root n → Passes σ₀ m σ → Passes σ₀ m σ') fun _ _ => True := by
      intro x hx
      refine (wrap_ends h₀ h hs hn hx).mono (fun b σ' => ?_) fun _ _ _ => trivial
      rintro ⟨h', he', hb⟩
      exact ⟨h', he', hb, fun _ _ hp => hp⟩
    have hproper := h.proper n
    cases hty : σ.getTy n with
    | con c ts =>
      rw [hty] at hproper
      refine hwrap _ ((checkedCon_ends h hlt hproper).mono (fun o σ' ho => ?_) fun _ _ _ => trivial)
      refine replaces_of_rebuilt h₀ hs hpasses (fun hn₀ hbar => ?_) hbs ho
      have hty₀ : σ₀.getTy n = .con c ts := (hgetTy hn₀).symm.trans hty
      simp only [Bars, hty₀] at hbar
      cases hbar.2.symm.trans ((hpasses hn₀).2 c ts hty₀)
    | flexRecord fields spine =>
      have hlen : fields.length = bs.length := by simpa [hty, Ty.components] using hbs.length_eq
      refine hwrap _ ((checkedFlexRecord_zip h hlt (hty ▸ hproper) hlen).mono (fun o σ' ho => ?_)
        fun _ _ _ => trivial)
      refine replaces_of_rebuilt h₀ hs hpasses (fun hn₀ hbar => ?_) hbs ho
      simp only [Bars, (hgetTy hn₀).symm.trans hty] at hbar
    | genFlexRecord => exact trivial
    | overload ov =>
      refine hwrap _ ?_
      cases ov with
      | real =>
        refine fresh_ends h fun hn₀ => ?_
        simp only [Bars, (hgetTy hn₀).symm.trans hty]
        exact (hpasses hn₀).1
      | _ => exact trivial
    | record r =>
      have hlen : r.range.length = bs.length := by simpa [hty, Ty.components] using hbs.length_eq
      refine hwrap _ ((checkedRecord_withRange h hlt (hty ▸ hproper) hlen).mono (fun o σ' ho => ?_)
        fun _ _ _ => trivial)
      refine replaces_of_rebuilt h₀ hs hpasses (fun hn₀ hbar => ?_) hbs ho
      simp only [Bars, (hgetTy hn₀).symm.trans hty] at hbar
    | unknown u =>
      refine hwrap _ ?_
      simp only [unknown, ends_bind, ends_get]
      cases heq : σ.equality n with
      | false =>
        refine fresh_ends h fun hn₀ => ?_
        simp only [Bars, (hgetTy hn₀).symm.trans hty]
        exact hs.equality_false hn₀ heq
      | _ =>
        refine ⟨fun _ => ⟨rfl, fun hn₀ hbar => ?_⟩, (by simp)⟩
        rcases hs.equality n hn₀ with heq' | ⟨-, hbar'⟩
        · simp only [Bars, (hgetTy hn₀).symm.trans hty, ← heq', heq] at hbar
          cases hbar
        · exact hbar' hbar
    | var a =>
      refine hwrap _ ?_
      simp only [var, ends_bind, ends_get]
      split_ifs
      · exact trivial
      · refine fresh_ends h fun hn₀ => ?_
        simp only [Bars, (hgetTy hn₀).symm.trans hty]
        exact (hpasses hn₀).1
  recursive _ _ := trivial

end CheckEquality

/-- **A type is made an equality type**, or it refuses, and there is another one that comes from it. -/
theorem checkEquality_ends {k : ℕ} (h : Sound L σ) (hn : n < σ.next) :
    (checkEquality k n).Ends σ (fun o σ' => Sound L σ' ∧ Keeps σ σ' ∧ (o = none → ¬ Bars σ n) ∧
      ∀ t, o = some t → t < σ'.next ∧ From σ.next σ' n t ∧ Refuses σ n ∧
        (Bars σ n → ∃ u, σ'.getTy t = .unknown u)) fun _ _ => True := by
  simp only [checkEquality, ends_bind]
  refine ((CheckEquality.walks h.toWf).hom_ends (k := k) ⟨h, .refl σ⟩ hn).mono (fun b σ' => ?_)
    fun _ _ _ => trivial
  rintro ⟨⟨h', -⟩, he, -, hlt, -, hfrom, hrefuses⟩
  obtain ⟨b, t⟩ := b
  cases b with
  | false => exact ⟨h', he, fun _ => (hrefuses hn).1 rfl, (by rintro _ ⟨⟩)⟩
  | true =>
    refine ⟨h', he, (by rintro ⟨⟩), fun t' ht' => ?_⟩
    obtain rfl := Option.some.inj ht'
    exact ⟨hlt, hfrom, (hrefuses hn).2 rfl⟩

/-! ## Looking for an unknown -/

theorem occurs_walks {u : Unknown} {s : TypeId} (h : σ.Wf) (hs : σ.getTy s = .unknown u) :
    Walk id (occurs u) (fun σ' => σ' = σ) (fun σ' σ'' => σ'' = σ')
      (fun n b _ => b = false → ¬ σ.graph.Reach n s) fun _ _ => True where
  wf h' := h' ▸ h
  refl _ := rfl
  trans _ _ _ h₁ h₂ := h₂.trans h₁
  root h' := h' ▸ rfl
  next h' := h' ▸ le_rfl
  mono _ hb _ := hb
  congr h' heq hb hf hr := hb hf (hr.congr_left (show σ.graph.root _ = σ.graph.root _ from h' ▸ heq.symm))
  congrQ _ _ _ := trivial
  guard h' _ := ⟨h', rfl, fun _ _ => trivial, nofun, fun _ => trivial⟩
  apply := by
    rintro n bs σ₁ σ₂ rfl rfl - - - - hbs
    have hparts : bs.any id = false → ∀ c ∈ (σ₂.getTy n).components, ¬ σ₂.graph.Reach c s := by
      intro hany c hc
      obtain ⟨i, hi, rfl⟩ := List.mem_iff_getElem.mp hc
      have hi' : i < bs.length := hbs.length_eq ▸ hi
      exact hbs.get hi hi' (by simpa using List.any_eq_false.mp hany _ (List.getElem_mem hi'))
    have hother : (∀ u', σ₂.getTy n ≠ .unknown u') → bs.any id = false → ¬ σ₂.graph.Reach n s := by
      intro hne hany hr
      cases hr with
      | here heq => exact hne u ((getTy_congr heq).trans hs)
      | inside hc hr => exact hparts hany _ hc hr
    have hleaf : (∀ u', σ₂.getTy n ≠ .unknown u') → (σ₂.getTy n).components = [] → ¬ σ₂.graph.Reach n s :=
      fun hne hnil hr => hne u ((getTy_congr (hr.root_eq hnil)).trans hs)
    have hlen := hbs.length_eq
    rw [id] at hlen ⊢
    cases hty : σ₂.getTy n with
    | con c ts => exact ⟨rfl, rfl, hother (by rw [hty]; nofun), fun _ _ => id⟩
    | flexRecord fields spine =>
      refine ⟨rfl, rfl, fun hany => hother (by rw [hty]; nofun) ?_, fun _ _ => id⟩
      have hsnd : ((fields.map Prod.fst).zip bs).map Prod.snd = bs :=
        List.map_snd_zip (by simpa [hty, Ty.components] using hlen.ge)
      rw [← hsnd, List.any_map]
      simpa [List.any_reverse, Function.comp_def] using hany
    | genFlexRecord => exact trivial
    | overload => exact ⟨rfl, rfl, fun _ => hleaf (by rw [hty]; nofun) (hty ▸ rfl), fun _ _ => id⟩
    | record r =>
      refine ⟨rfl, rfl, fun hany => hother (by rw [hty]; nofun) ?_, fun _ _ => id⟩
      rwa [Srecord.range_withRange (by simpa [hty, Ty.components] using hlen.symm)] at hany
    | unknown u' =>
      refine ⟨rfl, rfl, fun hne hr => ?_, fun _ _ => id⟩
      have heq := (getTy_congr (hr.root_eq (by rw [components_graph, hty]; rfl))).trans hs
      obtain rfl := Ty.unknown.inj (hty.symm.trans heq)
      simp at hne
    | var => exact ⟨rfl, rfl, fun _ => hleaf (by rw [hty]; nofun) (hty ▸ rfl), fun _ _ => id⟩
  recursive _ _ := trivial

end MLton.TypeEnv
