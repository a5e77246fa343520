import Mathlib.Data.Set.Lattice

/-!
# Machinery/Effects — computations that leave a trace and may end in several ways

A computation starts from the trace of events so far and has a set of outcomes, each a result with the
trace it leaves: more than one where a choice is left open.  `Sure m t Q` says that every outcome of `m`
from `t` satisfies `Q`; the lemmas say it for each way computations are put together, so that a claim
about a whole computation is taken apart from the front.
-/

namespace MLton.Effects

/-- How a computation ends: with a value, with a raised exception, by reporting a bug, by never coming
back from something it called, or by going wrong. -/
inductive Result (X α : Type*) where
  | value (a : α)
  | raised (x : X)
  | bug
  | gone
  | wrong

/-- A computation: the outcomes it can have after a trace. -/
def Effect (E X α : Type*) := List E → Set (Result X α × List E)

variable {E X α β ι : Type*}

namespace Effect

/-- End at once. -/
def stop (r : Result X α) : Effect E X α := fun t => {(r, t)}

/-- A step that leaves no choice. -/
def lift (m : List E → Result X α × List E) : Effect E X α := fun t => {m t}

/-- Go on with the value, if there is one. -/
def bind (m : Effect E X α) (f : α → Effect E X β) : Effect E X β := fun t => {o |
  ∃ r t', (r, t') ∈ m t ∧ match r with
    | .value a => o ∈ f a t'
    | .raised x => o = (.raised x, t')
    | .bug => o = (.bug, t')
    | .gone => o = (.gone, t')
    | .wrong => o = (.wrong, t')}

/-- Go on with the exception, if one is raised. -/
def handle (m : Effect E X α) (f : X → Effect E X α) : Effect E X α := fun t => {o |
  ∃ r t', (r, t') ∈ m t ∧ match r with
    | .raised x => o ∈ f x t'
    | _ => o = (r, t')}

/-- Go on with any element of a set. -/
def choose (S : Set ι) (f : ι → Effect E X α) : Effect E X α := fun t => ⋃ i ∈ S, f i t

/-- Every outcome of the computation satisfies `Q`. -/
def Sure (m : Effect E X α) (t : List E) (Q : Result X α → List E → Prop) : Prop :=
  ∀ r t', (r, t') ∈ m t → Q r t'

variable {m : Effect E X α} {t : List E} {Q : Result X α → List E → Prop}

theorem Sure.mono {Q' : Result X α → List E → Prop} (h : m.Sure t Q)
    (hQ : ∀ r t', Q r t' → Q' r t') : m.Sure t Q' :=
  fun r t' hr => hQ r t' (h r t' hr)

@[simp] theorem sure_stop {r : Result X α} : (stop r : Effect E X α).Sure t Q ↔ Q r t := by
  simp [Sure, stop]

@[simp] theorem sure_lift {m : List E → Result X α × List E} :
    (lift m).Sure t Q ↔ Q (m t).1 (m t).2 := by
  simp only [Sure, lift, Set.mem_singleton_iff]
  exact ⟨fun h => h _ _ rfl, fun h r t' hr => by obtain ⟨rfl, rfl⟩ := Prod.mk.inj hr; exact h⟩

/-- A condition on the outcomes of the whole, as one on the outcomes of its first part. -/
def andThen (f : α → Effect E X β) (Q : Result X β → List E → Prop) : Result X α → List E → Prop
  | .value a, t => (f a).Sure t Q
  | .raised x, t => Q (.raised x) t
  | .bug, t => Q .bug t
  | .gone, t => Q .gone t
  | .wrong, t => Q .wrong t

theorem sure_bind {f : α → Effect E X β} {Q : Result X β → List E → Prop} :
    (m.bind f).Sure t Q ↔ m.Sure t (andThen f Q) := by
  constructor
  · intro h r t' hr
    cases r with
    | value a => exact fun r t'' hr' => h r t'' ⟨.value a, t', hr, hr'⟩
    | raised x => exact h _ _ ⟨.raised x, t', hr, rfl⟩
    | bug => exact h _ _ ⟨.bug, t', hr, rfl⟩
    | gone => exact h _ _ ⟨.gone, t', hr, rfl⟩
    | wrong => exact h _ _ ⟨.wrong, t', hr, rfl⟩
  · rintro h r t'' ⟨r', t', hr, hr'⟩
    have := h r' t' hr
    cases r' with
    | value a => exact this r t'' hr'
    | raised x | bug | gone | wrong => obtain ⟨rfl, rfl⟩ := Prod.mk.inj hr'; exact this

/-- A condition on the outcomes of a handled computation, as one on the outcomes of the tried part. -/
def orElse (f : X → Effect E X α) (Q : Result X α → List E → Prop) : Result X α → List E → Prop
  | .raised x, t => (f x).Sure t Q
  | r, t => Q r t

theorem sure_handle {f : X → Effect E X α} :
    (m.handle f).Sure t Q ↔ m.Sure t (orElse f Q) := by
  constructor
  · intro h r t' hr
    cases r with
    | raised x => exact fun r t'' hr' => h r t'' ⟨.raised x, t', hr, hr'⟩
    | value a => exact h _ _ ⟨.value a, t', hr, rfl⟩
    | bug => exact h _ _ ⟨.bug, t', hr, rfl⟩
    | gone => exact h _ _ ⟨.gone, t', hr, rfl⟩
    | wrong => exact h _ _ ⟨.wrong, t', hr, rfl⟩
  · rintro h r t'' ⟨r', t', hr, hr'⟩
    have := h r' t' hr
    cases r' with
    | raised x => exact this r t'' hr'
    | value a | bug | gone | wrong => obtain ⟨rfl, rfl⟩ := Prod.mk.inj hr'; exact this

theorem sure_choose {S : Set ι} {f : ι → Effect E X α} :
    (choose S f).Sure t Q ↔ ∀ i ∈ S, (f i).Sure t Q := by
  simp only [Sure, choose, Set.mem_iUnion]
  exact ⟨fun h i hi r t' hr => h r t' ⟨i, hi, hr⟩, fun h r t' ⟨i, hi, hr⟩ => h i hi r t' hr⟩

end Effect

end MLton.Effects
