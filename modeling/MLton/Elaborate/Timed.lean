import MLton.Elaborate.TypeEnv
import MLton.Lib.TermGraph

/-!
# Elaborate/Timed — what is in a type is no later than the type

What must not be later is open: the unknowns and the flexible records.  A type variable or generic record
that a declaration was closed with is in no type that was there before the declaration (`Sound`).  This
module says how the single changes of the elaborator's types keep that.
-/

namespace MLton.TypeEnv

open TermGraph

/-! ## Types as terms -/

/-- A type that unification can still change. -/
def Ty.Open : Ty → Prop
  | unknown _ | flexRecord .. => True
  | _ => False

/-- What a declaration can be closed with: a type variable, or the extra fields of a generic record. -/
inductive Generic where
  | tyvar (a : Tyvar)
  | flex (e : Extra)
deriving DecidableEq, Repr

def Ty.generic : Ty → Option Generic
  | var a => some (.tyvar a)
  | genFlexRecord e _ _ => some (.flex e)
  | _ => none

/-- A record has no two fields of one name, and no type is a tuple of one. -/
def Ty.Proper : Ty → Prop
  | con c _ => c ≠ Typ.tupleTycon
  | flexRecord fields _ => (fields.map Prod.fst).Nodup
  | record r => (r.toVector.map Prod.fst).Nodup ∧ ∀ v, r = .tuple v → v.length ≠ 1
  | _ => True

/-- The generic part has been made. -/
def Generic.Made (σ : Env) : Generic → Prop
  | tyvar a => a < σ.nextTyvar
  | flex e => e < σ.nextExtra

/-- The types as terms that share their parts. -/
def Env.graph (σ : Env) : TermGraph TypeId := ⟨σ.root, fun r => (σ.cells r).ty.components⟩

@[simp] theorem graph_root (σ : Env) (n : TypeId) : σ.graph.root n = σ.root n := rfl

@[simp] theorem components_graph (σ : Env) (n : TypeId) : σ.graph.components n = (σ.getTy n).components := rfl

/-- **The types are well formed**: the nodes of a set have one root, the cells for its time and equality are its
own, and no type is inside itself. -/
structure Env.Wf (σ : Env) : Prop where
  root_root : ∀ n, σ.root (σ.root n) = σ.root n
  root_lt : ∀ n, n < σ.next → σ.root n < σ.next
  root_fresh : ∀ n, σ.next ≤ n → σ.root n = n
  own : ∀ n, σ.root n = n → σ.root (σ.cells n).time = n ∧ σ.root (σ.cells n).equality = n
  component_lt : ∀ n, ∀ c ∈ (σ.getTy n).components, c < σ.next
  component_nil : ∀ n, σ.next ≤ n → (σ.getTy n).components = []
  ranked : σ.graph.Ranked
  proper : ∀ n, (σ.getTy n).Proper
  made : ∀ n g, (σ.getTy n).generic = some g → g.Made σ
  spines : ∀ s, (σ.spines s).fields.Nodup

variable {σ σ' : Env} {n m t : TypeId} {ty : Ty} {τ τ' : Time} {e : Equality}

theorem cell_congr (h : σ.root n = σ.root m) : σ.cell n = σ.cell m := congrArg σ.cells h

theorem getTy_congr (h : σ.root n = σ.root m) : σ.getTy n = σ.getTy m := congrArg Cell.ty (cell_congr h)

theorem time_congr (h : σ.root n = σ.root m) : σ.time n = σ.time m :=
  congrArg (fun c : Cell => σ.times c.time) (cell_congr h)

theorem getTy_setTy : (σ.setTy t ty).getTy n = if σ.root n = σ.root t then ty else σ.getTy n := by
  simp only [Env.getTy, Env.cell, Env.setTy, Env.setCell]
  by_cases hn : σ.root n = σ.root t
  · rw [if_pos hn, hn, Function.update_self]
  · rw [if_neg hn, Function.update_of_ne hn]

theorem time_setTy : (σ.setTy t ty).time n = σ.time n := by
  simp only [Env.time, Env.cell, Env.setTy, Env.setCell]
  by_cases hn : σ.root n = σ.root t
  · rw [hn, Function.update_self]
  · rw [Function.update_of_ne hn]

namespace Env.Wf

variable (h : σ.Wf)

include h

theorem lt_of_root (heq : σ.root n = σ.root m) (hn : n < σ.next) : m < σ.next := by
  by_contra hm
  have hlt := h.root_lt n hn
  rw [heq, h.root_fresh m (not_lt.mp hm)] at hlt
  exact hm hlt

theorem root_ne_next (hn : n ≠ σ.next) : σ.root n ≠ σ.next := by
  intro heq
  rcases lt_or_ge n σ.next with hlt | hge
  · exact absurd heq (h.root_lt n hlt).ne
  · exact hn ((h.root_fresh n hge).symm.trans heq)

theorem time_root (n : TypeId) : σ.root (σ.cell n).time = σ.root n := (h.own _ (h.root_root n)).1

theorem equality_root (n : TypeId) : σ.root (σ.cell n).equality = σ.root n := (h.own _ (h.root_root n)).2

/-- Different sets have different time cells. -/
theorem root_of_time (heq : (σ.cell n).time = (σ.cell m).time) : σ.root n = σ.root m := by
  rw [← h.time_root n, ← h.time_root m, heq]

theorem root_of_equality (heq : (σ.cell n).equality = (σ.cell m).equality) : σ.root n = σ.root m := by
  rw [← h.equality_root n, ← h.equality_root m, heq]

/-! ### The changes, seen from a type -/

theorem getTy_make : (σ.make e τ ty).getTy n = if n = σ.next then ty else σ.getTy n := by
  simp only [Env.getTy, Env.cell, Env.make]
  by_cases hn : n = σ.next
  · rw [if_pos hn, hn, h.root_fresh _ le_rfl, Function.update_self]
  · rw [if_neg hn, Function.update_of_ne (h.root_ne_next hn)]

theorem time_make : (σ.make e τ ty).time n = if n = σ.next then τ else σ.time n := by
  simp only [Env.time, Env.cell, Env.make]
  by_cases hn : n = σ.next
  · rw [if_pos hn, hn, h.root_fresh _ le_rfl, Function.update_self, Function.update_self]
  · rw [if_neg hn, Function.update_of_ne (h.root_ne_next hn), Function.update_of_ne]
    intro heq
    have hroot := h.time_root n
    rw [show (σ.cell n).time = σ.next from heq, h.root_fresh _ le_rfl] at hroot
    exact h.root_ne_next hn hroot.symm

theorem time_setTime : (σ.setTime t τ).time n = if σ.root n = σ.root t then τ else σ.time n := by
  simp only [Env.time, Env.setTime]
  by_cases hn : σ.root n = σ.root t
  · rw [if_pos hn]
    change Function.update σ.times (σ.cell t).time τ (σ.cell n).time = τ
    rw [cell_congr hn, Function.update_self]
  · rw [if_neg hn]
    exact Function.update_of_ne (fun heq => hn (h.root_of_time heq)) _ _

/-- What is reached from a type has been made. -/
theorem reach_lt (hr : σ.graph.Reach n m) (hn : n < σ.next) : m < σ.next := by
  induction hr with
  | here heq => exact h.lt_of_root heq hn
  | inside hc _ ih => exact ih (h.component_lt _ _ hc)

theorem equality_setEquality :
    (σ.setEquality t e).equality n = if σ.root n = σ.root t then e else σ.equality n := by
  by_cases hn : σ.root n = σ.root t
  · rw [if_pos hn]
    change Function.update σ.equalities (σ.cell t).equality e (σ.cell n).equality = e
    rw [cell_congr hn, Function.update_self]
  · rw [if_neg hn]
    exact Function.update_of_ne (fun heq => hn (h.root_of_equality heq)) _ _

end Env.Wf

theorem equality_congr (h : σ.root n = σ.root m) : σ.equality n = σ.equality m :=
  congrArg (fun c : Cell => σ.equalities c.equality) (cell_congr h)

/-! ## Times -/

/-- What declarations have been closed with, each with the time before the declaration. -/
abbrev Generalized := List (Generic × Time)

variable {L L' : Generalized}

/-- A type may be inside of a type of this time. -/
def Allowed (L : Generalized) (σ : Env) (τ : Time) (m : TypeId) : Prop :=
  ((σ.getTy m).Open → σ.time m ≤ τ) ∧ ∀ g b, (σ.getTy m).generic = some g → (g, b) ∈ L → b < τ

/-- All that is inside of a type may be inside of a type of this time. -/
def Fits (L : Generalized) (σ : Env) (τ : Time) (n : TypeId) : Prop := σ.graph.Holds (Allowed L σ τ) n

theorem Allowed.mono (h : Allowed L σ τ m) (hle : τ ≤ τ') : Allowed L σ τ' m :=
  ⟨fun ho => (h.1 ho).trans hle, fun g b hg hb => (h.2 g b hg hb).trans_le hle⟩

theorem Fits.mono (h : Fits L σ τ n) (hle : τ ≤ τ') : Fits L σ τ' n := Holds.mono h fun _ hm => hm.mono hle

theorem Allowed.congr (heq : σ.root n = σ.root m) (h : Allowed L σ τ n) : Allowed L σ τ m := by
  unfold Allowed at h ⊢
  rwa [← getTy_congr heq, ← time_congr heq]

/-- What is kept by the step to the parts fits. -/
theorem fits_of {S : TypeId → Prop}
    (hS : ∀ n, S n → Allowed L σ τ n ∧ ∀ c ∈ (σ.getTy n).components, S c) (hn : S n) : Fits L σ τ n :=
  holds_of (fun _ _ => Allowed.congr) hS hn

/-- **What a type of this time may be.** -/
structure Placed (L : Generalized) (σ : Env) (τ : Time) (ty : Ty) : Prop where
  lt : ∀ c ∈ ty.components, c < σ.next
  proper : ty.Proper
  generic : ∀ g, ty.generic = some g → g.Made σ ∧ ∀ b, (g, b) ∈ L → b < τ
  fits : ∀ c ∈ ty.components, Fits L σ τ c

theorem Placed.mono (h : Placed L σ τ ty) (hle : τ ≤ τ') : Placed L σ τ' ty :=
  ⟨h.lt, h.proper, fun g hg => ⟨(h.generic g hg).1, fun b hb => ((h.generic g hg).2 b hb).trans_le hle⟩,
    fun c hc => (h.fits c hc).mono hle⟩

/-- **The times are sound**: what is inside of a type fits its time. -/
structure Sound (L : Generalized) (σ : Env) : Prop extends σ.Wf where
  open_le : ∀ n, (σ.getTy n).Open → σ.time n ≤ σ.clock
  generalized : ∀ g b, (g, b) ∈ L → g.Made σ ∧ b < σ.clock ∧ ∀ a, g = .tyvar a → b < (σ.tyvars a).time
  fits : ∀ n, Fits L σ (σ.time n) n

theorem Sound.placed (h : Sound L σ) (t : TypeId) : Placed L σ (σ.time t) (σ.getTy t) where
  lt := h.component_lt t
  proper := h.proper t
  generic g hg := ⟨h.made t g hg, fun b hb => (h.fits t).root.2 g b hg hb⟩
  fits _ hc := (h.fits t).component hc

/-- At the present time anything fits. -/
theorem Sound.fits_clock (h : Sound L σ) (hle : σ.clock ≤ τ) (n : TypeId) : Fits L σ τ n := fun m _ =>
  ⟨fun ho => (h.open_le m ho).trans hle, fun g b _ hb => (h.generalized g b hb).2.1.trans_le hle⟩

/-- What the soundness of the times is not about. -/
theorem Sound.congr (h : Sound L σ) (hnext : σ'.next = σ.next) (hroot : σ'.root = σ.root)
    (hcells : σ'.cells = σ.cells) (htimes : σ'.times = σ.times) (hclock : σ.clock ≤ σ'.clock)
    (hextra : σ.nextExtra ≤ σ'.nextExtra) (htyvar : σ.nextTyvar ≤ σ'.nextTyvar)
    (htyvars : ∀ a < σ.nextTyvar, σ'.tyvars a = σ.tyvars a) (hspines : ∀ s, (σ'.spines s).fields.Nodup) :
    Sound L σ' := by
  have hgetTy : σ'.getTy = σ.getTy := by
    funext n
    simp only [Env.getTy, Env.cell, hcells, hroot]
  have htime : σ'.time = σ.time := by
    funext n
    simp only [Env.time, Env.cell, hcells, hroot, htimes]
  have hgraph : σ'.graph = σ.graph := by simp only [Env.graph, hroot, hcells]
  have hmade : ∀ g : Generic, g.Made σ → g.Made σ'
    | .tyvar _, hg => Nat.lt_of_lt_of_le hg htyvar
    | .flex _, hg => Nat.lt_of_lt_of_le hg hextra
  constructor
  · constructor
    · exact hroot ▸ h.root_root
    · exact hroot ▸ hnext ▸ h.root_lt
    · exact hroot ▸ hnext ▸ h.root_fresh
    · exact hroot ▸ hcells ▸ h.own
    · exact hgetTy ▸ hnext ▸ h.component_lt
    · exact hgetTy ▸ hnext ▸ h.component_nil
    · exact hgraph ▸ h.ranked
    · exact hgetTy ▸ h.proper
    · exact hgetTy ▸ fun n g hg => hmade g (h.made n g hg)
    · exact hspines
  · exact hgetTy ▸ htime ▸ fun n ho => (h.open_le n ho).trans hclock
  · intro g b hb
    obtain ⟨hg, hlt, ha⟩ := h.generalized g b hb
    refine ⟨hmade g hg, hlt.trans_le hclock, fun a hga => ?_⟩
    subst hga
    rw [htyvars a hg]
    exact ha a rfl
  · intro n m hm
    rw [hgraph] at hm
    have := h.fits n m hm
    unfold Allowed at this ⊢
    rwa [hgetTy, htime]

/-! ## The single changes -/

theorem Fits.intro (hn : Allowed L σ τ n) (hc : ∀ c ∈ (σ.getTy n).components, Fits L σ τ c) : Fits L σ τ n :=
  Holds.intro (fun _ heq => hn.congr heq) hc

namespace Sound

/-! ### A new type -/

theorem wf_make (h : σ.Wf) (hp : Placed L σ τ ty) : (σ.make e τ ty).Wf where
  root_root := h.root_root
  root_lt n hn := by
    rcases Nat.lt_succ_iff_lt_or_eq.mp hn with hn | rfl
    · exact (h.root_lt n hn).trans (Nat.lt_succ_self _)
    · exact (h.root_fresh _ le_rfl).trans_lt (Nat.lt_succ_self _)
  root_fresh n hn := h.root_fresh n (Nat.le_of_succ_le hn)
  own n hn := by
    by_cases heq : n = σ.next
    · subst heq
      simp only [Env.make, Function.update_self]
      exact ⟨hn, hn⟩
    · simp only [Env.make, Function.update_of_ne heq]
      exact h.own n hn
  component_lt n c hc := by
    rw [h.getTy_make] at hc
    split_ifs at hc with hn
    · exact (hp.lt c hc).trans (Nat.lt_succ_self _)
    · exact (h.component_lt n c hc).trans (Nat.lt_succ_self _)
  component_nil n hn := by
    rw [h.getTy_make, if_neg (Nat.ne_of_gt hn)]
    exact h.component_nil n (Nat.le_of_succ_le hn)
  ranked := by
    refine h.ranked.set (s := σ.next) (fun _ => rfl) (fun n hn => ?_) fun c hc hr => ?_
    · have hne : n ≠ σ.next := fun heq => hn (heq ▸ rfl)
      rw [components_graph, h.getTy_make, if_neg hne, components_graph]
    · rw [components_graph, h.getTy_make, if_pos rfl] at hc
      exact (h.reach_lt hr (hp.lt c hc)).false
  proper n := by
    rw [h.getTy_make]
    split_ifs
    · exact hp.proper
    · exact h.proper n
  made n g hg := by
    rw [h.getTy_make] at hg
    split_ifs at hg
    · exact (hp.generic g hg).1
    · exact h.made n g hg
  spines := h.spines

theorem make (h : Sound L σ) (hp : Placed L σ τ ty) (hopen : ty.Open → τ ≤ σ.clock) :
    Sound L (σ.make e τ ty) := by
  have hkept : ∀ τ' n, n ≠ σ.next → Fits L σ τ' n → Fits L (σ.make e τ ty) τ' n := by
    intro τ' n hn hfit
    refine fits_of (S := fun k => k ≠ σ.next ∧ Fits L σ τ' k) (fun k ⟨hk, hfit⟩ => ?_) ⟨hn, hfit⟩
    have hroot := hfit.root
    unfold Allowed at hroot ⊢
    rw [h.getTy_make, if_neg hk, h.time_make, if_neg hk]
    exact ⟨hroot, fun c hc => ⟨(h.component_lt k c hc).ne, hfit.component hc⟩⟩
  refine ⟨wf_make h.toWf hp, fun n ho => ?_, h.generalized, fun n => ?_⟩
  · rw [h.getTy_make] at ho
    rw [h.time_make]
    split_ifs at ho ⊢ with hn
    · exact hopen ho
    · exact h.open_le n ho
  · by_cases hn : n = σ.next
    · subst hn
      refine .intro ?_ fun c hc => ?_
      · unfold Allowed
        rw [h.getTy_make, if_pos rfl]
        exact ⟨fun _ => le_rfl, fun g b hg hb => by rw [h.time_make, if_pos rfl]; exact (hp.generic g hg).2 b hb⟩
      · rw [h.getTy_make, if_pos rfl] at hc
        rw [h.time_make, if_pos rfl]
        exact hkept τ c (hp.lt c hc).ne (hp.fits c hc)
    · rw [h.time_make, if_neg hn]
      exact hkept _ n hn (h.fits n)

/-! ### A new time -/

theorem wf_setTime (h : σ.Wf) : (σ.setTime t τ).Wf :=
  ⟨h.root_root, h.root_lt, h.root_fresh, h.own, h.component_lt, h.component_nil, h.ranked, h.proper, h.made, h.spines⟩

/-- **A type gets a time that what is inside of it fits**; an open one gets no later. -/
theorem setTime (h : Sound L σ) (hp : Placed L σ τ (σ.getTy t)) (hlower : (σ.getTy t).Open → τ ≤ σ.time t) :
    Sound L (σ.setTime t τ) := by
  have hle : ∀ n, (σ.getTy n).Open → (σ.setTime t τ).time n ≤ σ.time n := by
    intro n ho
    rw [h.time_setTime]
    split_ifs with hn
    · rw [time_congr hn]
      exact hlower (getTy_congr hn ▸ ho)
    · exact le_rfl
  have hkept : ∀ τ' n, Fits L σ τ' n → Fits L (σ.setTime t τ) τ' n := fun τ' n =>
    fits_of fun k hk => ⟨⟨fun ho => (hle k ho).trans (hk.root.1 ho), hk.root.2⟩, fun c hc => hk.component hc⟩
  refine ⟨wf_setTime h.toWf, fun n ho => (hle n ho).trans (h.open_le n ho), h.generalized, fun n => ?_⟩
  rw [h.time_setTime]
  split_ifs with hn
  · refine .intro ⟨fun _ => by rw [h.time_setTime, if_pos hn], fun g b hg => ?_⟩ fun c hc => ?_
    · exact (hp.generic g (getTy_congr (σ := σ) hn ▸ hg)).2 b
    · exact hkept τ c (hp.fits c (getTy_congr (σ := σ) hn ▸ hc))
  · exact hkept _ n (h.fits n)

/-! ### A new description of a type -/

theorem wf_setTy (h : σ.Wf) (ht : t < σ.next) (hlt : ∀ c ∈ ty.components, c < σ.next) (hproper : ty.Proper)
    (hmade : ∀ g, ty.generic = some g → g.Made σ) (hr : ∀ c ∈ ty.components, ¬ σ.graph.Reach c t) :
    (σ.setTy t ty).Wf where
  root_root := h.root_root
  root_lt := h.root_lt
  root_fresh := h.root_fresh
  own n hn := by
    by_cases heq : n = σ.root t
    · subst heq
      simp only [Env.setTy, Env.setCell, Function.update_self]
      exact h.own _ hn
    · simp only [Env.setTy, Env.setCell, Function.update_of_ne heq]
      exact h.own n hn
  component_lt n c hc := by
    rw [getTy_setTy] at hc
    split_ifs at hc
    · exact hlt c hc
    · exact h.component_lt n c hc
  component_nil n hn := by
    rw [getTy_setTy, if_neg fun heq => absurd (h.lt_of_root heq.symm ht) (not_lt.mpr hn)]
    exact h.component_nil n hn
  ranked := by
    refine h.ranked.set (s := t) (fun _ => rfl) (fun n hn => ?_) fun c hc => ?_
    · simp only [components_graph, getTy_setTy, if_neg (show σ.root n ≠ σ.root t from hn)]
    · rw [components_graph, getTy_setTy, if_pos rfl] at hc
      exact hr c hc
  proper n := by
    rw [getTy_setTy]
    split_ifs
    · exact hproper
    · exact h.proper n
  made n g hg := by
    rw [getTy_setTy] at hg
    split_ifs at hg
    · exact hmade g hg
    · exact h.made n g hg
  spines := h.spines

/-- **An open type becomes one that may have its time.** -/
theorem setTy (h : Sound L σ) (ht : t < σ.next) (hp : Placed L σ (σ.time t) ty) (hr : ∀ c ∈ ty.components, ¬ σ.graph.Reach c t)
    (ho : (σ.getTy t).Open) : Sound L (σ.setTy t ty) := by
  have hkept : ∀ τ n, Fits L σ τ n → Fits L (σ.setTy t ty) τ n := by
    refine fun τ n => fits_of fun k hk => ?_
    unfold Allowed
    rw [getTy_setTy, time_setTy]
    split_ifs with hkt
    · have hle : σ.time t ≤ τ := time_congr hkt ▸ hk.root.1 (getTy_congr hkt ▸ ho)
      have hp' := hp.mono hle
      exact ⟨⟨fun _ => time_congr hkt ▸ hle, fun g b hg => (hp'.generic g hg).2 b⟩, hp'.fits⟩
    · exact ⟨hk.root, fun c hc => hk.component hc⟩
  refine ⟨wf_setTy h.toWf ht hp.lt hp.proper (fun g hg => (hp.generic g hg).1) hr, fun n hn => ?_, h.generalized,
    fun n => ?_⟩
  · rw [getTy_setTy] at hn
    rw [time_setTy]
    split_ifs at hn with hnt
    · exact time_congr hnt ▸ h.open_le t ho
    · exact h.open_le n hn
  · rw [time_setTy]
    exact hkept _ n (h.fits n)

end Sound

/-! ### Two types put together -/

/-- The state after two types have been put together. -/
def Env.merge (σ : Env) (s s' : TypeId) (joined : Equality) (ty : Ty) : Env :=
  { σ with
    root := fun n => if σ.root n = σ.root s' then σ.root s else σ.root n
    cells := Function.update σ.cells (σ.root s) { σ.cell s with ty := ty }
    times := Function.update σ.times (σ.cell s).time (min (σ.time s) (σ.time s'))
    equalities := Function.update σ.equalities (σ.cell s).equality joined }

/-- **Two types can be put together**: they are apart, and the type they become is made of their parts and
fits wherever one of them fits. -/
structure Mergeable (L : Generalized) (σ : Env) (s s' : TypeId) (ty : Ty) : Prop where
  lt : s < σ.next
  lt' : s' < σ.next
  apart : ¬ σ.graph.Reach s s'
  apart' : ¬ σ.graph.Reach s' s
  isOpen : ty.Open → (σ.getTy s).Open ∧ (σ.getTy s').Open
  parts : ∀ c ∈ ty.components,
    ∃ c', σ.root c' = σ.root c ∧ (c' ∈ (σ.getTy s).components ∨ c' ∈ (σ.getTy s').components)
  placed : ∀ τ, Fits L σ τ s ∨ Fits L σ τ s' → Placed L σ τ ty

variable {s s' : TypeId} {joined : Equality}

theorem getTy_merge : (σ.merge s s' joined ty).getTy n =
    if σ.root n = σ.root s ∨ σ.root n = σ.root s' then ty else σ.getTy n := by
  simp only [Env.getTy, Env.cell, Env.merge]
  by_cases hs' : σ.root n = σ.root s'
  · rw [if_pos hs', if_pos (Or.inr hs'), Function.update_self]
  · by_cases hs : σ.root n = σ.root s
    · rw [if_neg hs', if_pos (Or.inl hs), hs, Function.update_self]
    · rw [if_neg hs', if_neg (not_or.mpr ⟨hs, hs'⟩), Function.update_of_ne hs]

theorem Env.Wf.time_merge (h : σ.Wf) : (σ.merge s s' joined ty).time n =
    if σ.root n = σ.root s ∨ σ.root n = σ.root s' then min (σ.time s) (σ.time s') else σ.time n := by
  by_cases hn : σ.root n = σ.root s ∨ σ.root n = σ.root s'
  · have hcell : (σ.merge s s' joined ty).cell n = { σ.cell s with ty := ty } := by
      simp only [Env.cell, Env.merge]
      split_ifs with hs'
      · rw [Function.update_self]
      · rw [hn.resolve_right hs', Function.update_self]
    rw [if_pos hn, Env.time, hcell]
    exact Function.update_self ..
  · have hcell : (σ.merge s s' joined ty).cell n = σ.cell n := by
      simp only [Env.cell, Env.merge]
      rw [if_neg fun hs' => hn (.inr hs'), Function.update_of_ne fun hs => hn (.inl hs)]
    rw [if_neg hn, Env.time, hcell]
    exact Function.update_of_ne (fun heq => hn (.inl (h.root_of_time heq))) _ _

theorem root_of_merge {k : TypeId} (heq : (σ.merge s s' joined ty).root n = (σ.merge s s' joined ty).root k) :
    σ.root n = σ.root k ∨ (σ.root n = σ.root s ∨ σ.root n = σ.root s') ∧
      (σ.root k = σ.root s ∨ σ.root k = σ.root s') := by
  simp only [Env.merge] at heq
  split_ifs at heq with h1 h2 h2
  · exact .inr ⟨.inr h1, .inr h2⟩
  · exact .inr ⟨.inr h1, .inl heq.symm⟩
  · exact .inr ⟨.inl heq, .inr h2⟩
  · exact .inl heq

namespace Mergeable

variable (hm : Mergeable L σ s s' ty)

include hm

theorem symm : Mergeable L σ s' s ty :=
  ⟨hm.lt', hm.lt, hm.apart', hm.apart, fun ho => (hm.isOpen ho).symm,
    fun c hc => let ⟨c', heq, hc'⟩ := hm.parts c hc; ⟨c', heq, hc'.symm⟩, fun τ hf => hm.placed τ hf.symm⟩

theorem parts_merge {c : TypeId} (hc : c ∈ ((σ.merge s s' joined ty).getTy n).components) :
    ∃ c', σ.root c' = σ.root c ∧ (c' ∈ (σ.getTy n).components ∨
      (σ.root n = σ.root s ∨ σ.root n = σ.root s') ∧
        (c' ∈ (σ.getTy s).components ∨ c' ∈ (σ.getTy s').components)) := by
  rw [getTy_merge] at hc
  split_ifs at hc with hn
  · obtain ⟨c', heq, hc'⟩ := hm.parts c hc
    exact ⟨c', heq, .inr ⟨hn, hc'⟩⟩
  · exact ⟨c, rfl, .inl hc⟩

theorem wf (h : σ.Wf) (hp : Placed L σ τ ty) : (σ.merge s s' joined ty).Wf where
  root_root n := by
    have hs : σ.root s ≠ σ.root s' := fun heq => hm.apart (.here heq)
    simp only [Env.merge]
    split_ifs with h1 h2 h3
    · exact absurd ((h.root_root s).symm.trans h2) hs
    · exact h.root_root s
    · exact absurd ((h.root_root n).symm.trans h3) h1
    · exact h.root_root n
  root_lt n hn := by
    simp only [Env.merge]
    split_ifs
    · exact h.root_lt s hm.lt
    · exact h.root_lt n hn
  root_fresh n hn := by
    simp only [Env.merge]
    rw [if_neg, h.root_fresh n hn]
    rw [h.root_fresh n hn]
    exact fun heq => absurd (h.root_lt s' hm.lt') (not_lt.mpr (heq ▸ hn))
  own n hn := by
    have hs : σ.root s ≠ σ.root s' := fun heq => hm.apart (.here heq)
    simp only [Env.merge] at hn ⊢
    split_ifs at hn with hn'
    · rw [← hn, h.root_root] at hn'
      exact absurd hn' hs
    · by_cases heq : n = σ.root s
      · subst heq
        simp only [Function.update_self, h.time_root, h.equality_root, if_neg hs, and_self]
      · have hne : n ≠ σ.root s' := fun heq' => hn' (hn.trans heq')
        simp only [Function.update_of_ne heq, h.own n hn, if_neg hne, and_self]
  component_lt n c hc := by
    rw [getTy_merge] at hc
    split_ifs at hc
    · exact hp.lt c hc
    · exact h.component_lt n c hc
  component_nil n hn := by
    have hne : ∀ t, t < σ.next → σ.root n ≠ σ.root t := fun t ht heq =>
      absurd (h.lt_of_root heq.symm ht) (not_lt.mpr hn)
    rw [getTy_merge, if_neg (not_or.mpr ⟨hne s hm.lt, hne s' hm.lt'⟩)]
    exact h.component_nil n hn
  ranked :=
    h.ranked.merge hm.apart hm.apart' (fun n k heq =>
        root_of_merge (show (σ.merge s s' joined ty).root n = (σ.merge s s' joined ty).root k from heq))
      fun _ _ hc => hm.parts_merge hc
  proper n := by
    rw [getTy_merge]
    split_ifs
    · exact hp.proper
    · exact h.proper n
  made n g hg := by
    rw [getTy_merge] at hg
    split_ifs at hg
    · exact (hp.generic g hg).1
    · exact h.made n g hg
  spines := h.spines

/-- **The types stay sound** when two of them are put together. -/
theorem sound (h : Sound L σ) : Sound L (σ.merge s s' joined ty) := by
  have hroot : ∀ n, σ.root n = σ.root s ∨ σ.root n = σ.root s' →
      (σ.merge s s' joined ty).root n = σ.root s := by
    intro n hn
    simp only [Env.merge]
    split_ifs with hs'
    · rfl
    · exact hn.resolve_right hs'
  have hkept : ∀ τ n, Fits L σ τ n → Fits L (σ.merge s s' joined ty) τ n := by
    refine fun τ n => fits_of fun k hk => ?_
    unfold Allowed
    rw [getTy_merge, h.time_merge]
    split_ifs with hks
    · have hp := hm.placed τ (hks.imp hk.congr hk.congr)
      refine ⟨⟨fun ho => ?_, fun g b hg => (hp.generic g hg).2 b⟩, hp.fits⟩
      rcases hks with hks | hks
      · exact (min_le_left _ _).trans ((hk.congr hks).root.1 (hm.isOpen ho).1)
      · exact (min_le_right _ _).trans ((hk.congr hks).root.1 (hm.isOpen ho).2)
    · exact ⟨hk.root, fun c hc => hk.component hc⟩
  refine ⟨hm.wf h.toWf (hm.placed _ (.inl (h.fits s))), fun n ho => ?_, h.generalized, fun n => ?_⟩
  · rw [getTy_merge] at ho
    rw [h.time_merge]
    split_ifs at ho ⊢
    · exact (min_le_left _ _).trans (h.open_le s (hm.isOpen ho).1)
    · exact h.open_le n ho
  · rw [h.time_merge]
    split_ifs with hn
    · rcases min_choice (σ.time s) (σ.time s') with hmin | hmin
      · rw [hmin]
        exact (hkept _ s (h.fits s)).congr ((hroot s (.inl rfl)).trans (hroot n hn).symm)
      · rw [hmin]
        exact (hkept _ s' (h.fits s')).congr ((hroot s' (.inr rfl)).trans (hroot n hn).symm)
    · exact hkept _ n (h.fits n)

end Mergeable

/-! ### A type becomes generic -/

/-- **What is open and later than a declaration is closed with it.** -/
theorem Sound.generalize {g : Generic} {b : Time} (h : Sound L σ) (ht : t < σ.next) (ho : (σ.getTy t).Open) (hb : b < σ.time t)
    (hclosed : ¬ ty.Open) (hg : ty.generic = some g) (hproper : ty.Proper) (hmade : g.Made σ)
    (ha : ∀ a, g = .tyvar a → b < (σ.tyvars a).time) (hnew : ∀ n, (σ.getTy n).generic ≠ some g)
    (hL : ∀ b', (g, b') ∉ L) (hparts : ty.components = (σ.getTy t).components) :
    Sound ((g, b) :: L) (σ.setTy t ty) := by
  have hkept : ∀ τ n, Fits L σ τ n → Fits ((g, b) :: L) (σ.setTy t ty) τ n := by
    refine fun τ n => fits_of fun k hk => ?_
    unfold Allowed
    rw [getTy_setTy, time_setTy]
    split_ifs with hkt
    · have hle : σ.time t ≤ τ := time_congr hkt ▸ hk.root.1 (getTy_congr hkt ▸ ho)
      refine ⟨⟨fun ho' => absurd ho' hclosed, fun g' b' hg' hb' => ?_⟩, fun c hc => ?_⟩
      · obtain rfl := Option.some.inj (hg.symm.trans hg')
        rcases List.mem_cons.mp hb' with heq | hb'
        · exact (Prod.mk.inj heq).2 ▸ hb.trans_le hle
        · exact absurd hb' (hL b')
      · rw [hparts, ← getTy_congr hkt] at hc
        exact hk.component hc
    · refine ⟨⟨hk.root.1, fun g' b' hg' hb' => ?_⟩, fun c hc => hk.component hc⟩
      rcases List.mem_cons.mp hb' with heq | hb'
      · exact absurd ((Prod.mk.inj heq).1 ▸ hg') (hnew k)
      · exact hk.root.2 g' b' hg' hb'
  have hlt : ∀ c ∈ ty.components, c < σ.next := hparts ▸ h.component_lt t
  have hr : ∀ c ∈ ty.components, ¬ σ.graph.Reach c t := fun c hc =>
    h.ranked.not_reach (g := σ.graph) (show c ∈ (σ.getTy t).components from hparts ▸ hc)
  have hmade' : ∀ g', ty.generic = some g' → g'.Made σ := fun g' hg' =>
    Option.some.inj (hg.symm.trans hg') ▸ hmade
  refine ⟨Sound.wf_setTy h.toWf ht hlt hproper hmade' hr, fun n hn => ?_, fun g' b' hb' => ?_, fun n => ?_⟩
  · rw [getTy_setTy] at hn
    rw [time_setTy]
    split_ifs at hn with hnt
    · exact absurd hn hclosed
    · exact h.open_le n hn
  · rcases List.mem_cons.mp hb' with heq | hb'
    · obtain ⟨rfl, rfl⟩ := Prod.mk.inj heq
      exact ⟨hmade, hb.trans_le (h.open_le t ho), ha⟩
    · exact h.generalized g' b' hb'
  · rw [time_setTy]
    exact hkept _ n (h.fits n)

end MLton.TypeEnv
