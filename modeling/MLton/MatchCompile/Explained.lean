import Mathlib.Data.List.Forall2
import MLton.MatchCompile.Typing

/-!
# MatchCompile/Explained — what the facts say about a row

A row lists what is still to be tested for its nested pattern; the rest of that pattern is settled by the
facts and by the constants that were compared with.  When nothing is left, `Facts.bind` finds for the
pattern's variables the names of what they are bound to (`Explains.bindLoop`).
-/

namespace MLton.MatchCompile

variable {μ : ℕ → Value} {σ : Env}

/-! ## What a pattern asks of a value at once -/

theorem Pat.isWild_iff : ∀ {p : Pat}, p.isWild = true ↔ p = wild
  | wild => by simp [isWild]
  | con _ _ | conApp _ _ _ _ | const _ _ _ | record _ _ | vector _ => by simp [isWild]

/-- The outermost part of the pattern matches. -/
def Pat.admits (μ : ℕ → Value) : Pat → Value → Prop
  | con c _, v => v = .con c
  | conApp c _ _ _, v => (v.arg μ c).isSome
  | const c _ _, v => Value.ofConst c = some v
  | record _ _, _ => True
  | vector ps, v => ∃ vs, v = .vector vs ∧ vs.length = ps.length
  | wild, _ => True

theorem NestedPat.length_of_bindAll : ∀ {ps : List NestedPat} {vs : List Value} {b : Bindings},
    NestedPat.bindAll μ ps vs = some b → vs.length = ps.length
  | [], [], _, _ => rfl
  | [], _ :: _, _, h => absurd h nofun
  | _ :: _, [], _, h => absurd h nofun
  | p :: ps, v :: vs, _, h => by
    rw [NestedPat.bindAll, Option.bind_eq_some_iff] at h
    obtain ⟨ρ, -, h⟩ := h
    obtain ⟨b, hb, -⟩ := Option.map_eq_some_iff.mp h
    exact congrArg (· + 1) (length_of_bindAll hb)

theorem Pat.length_fromNestedPats : ∀ {ps : List NestedPat} {qs : List Pat},
    Pat.fromNestedPats ps = some qs → qs.length = ps.length
  | [], _, h => by
    rw [← Option.some.inj h]
    rfl
  | p :: ps, _, h => by
    rw [Pat.fromNestedPats, Option.bind_eq_some_iff] at h
    obtain ⟨q, -, h⟩ := h
    obtain ⟨qs, hqs, rfl⟩ := Option.map_eq_some_iff.mp h
    exact congrArg (· + 1) (length_fromNestedPats hqs)

/-- A pattern that matches is admitted. -/
theorem NestedPat.admits_of_bind : ∀ {p : NestedPat} {q : Pat} {v : Value} {b : Bindings},
    Pat.fromNestedPat p = some q → p.bind μ v = some b → q.admits μ v
  | .con _ c targs, _, v, _, hq, hb => by
    rw [← Option.some.inj hq]
    rw [NestedPat.bind] at hb
    split at hb
    · assumption
    · exact absurd hb nofun
  | .conApp _ c targs p, _, v, _, hq, hb => by
    rw [Pat.fromNestedPat] at hq
    obtain ⟨q, -, rfl⟩ := Option.map_eq_some_iff.mp hq
    rw [NestedPat.bind, Option.bind_eq_some_iff] at hb
    obtain ⟨w, hw, -⟩ := hb
    exact Option.isSome_iff_exists.mpr ⟨w, hw⟩
  | .const _ c _ _, _, v, _, hq, hb => by
    rw [← Option.some.inj hq]
    rw [NestedPat.bind] at hb
    split at hb
    · assumption
    · exact absurd hb nofun
  | .layered _ _ p, _, v, _, hq, hb => by
    rw [Pat.fromNestedPat] at hq
    rw [NestedPat.bind] at hb
    obtain ⟨b, hb, -⟩ := Option.map_eq_some_iff.mp hb
    exact admits_of_bind hq hb
  | .or _ _, _, _, _, hq, _ => absurd hq nofun
  | .record _ fs ps, _, _, _, hq, _ => by
    rw [Pat.fromNestedPat] at hq
    obtain ⟨qs, -, rfl⟩ := Option.map_eq_some_iff.mp hq
    trivial
  | .var _ _, _, _, _, hq, _ => by
    rw [← Option.some.inj hq]
    trivial
  | .vector _ ps, _, v, _, hq, hb => by
    rw [Pat.fromNestedPat] at hq
    obtain ⟨qs, hqs, rfl⟩ := Option.map_eq_some_iff.mp hq
    cases v with
    | vector vs => exact ⟨vs, rfl, (length_of_bindAll hb).trans (Pat.length_fromNestedPats hqs).symm⟩
    | _ => exact absurd hb nofun
  | .wild _, _, _, _, hq, _ => by
    rw [← Option.some.inj hq]
    trivial

/-! ## Settled patterns -/

/-- The pattern is still to be tested. -/
def Todo (p : NestedPat) (x : Var) (todo : List (Pat × Var)) : Prop :=
  ∃ q, Pat.fromNestedPat p = some q ∧ todo = [(q, x)]

section Explains

variable (fact : Var → Option Fact) (known : Var → Const → Prop)

mutual

/-- What is to be tested for a pattern at a variable, where `known` constants were compared with. -/
def Explains : NestedPat → Var → List (Pat × Var) → Prop
  | .con i c targs, x, todo => Todo (.con i c targs) x todo ∨ todo = [] ∧ fact x = some (.con c none)
  | .conApp i c targs p, x, todo => Todo (.conApp i c targs p) x todo ∨
      ∃ y, fact x = some (.con c (some y)) ∧ Explains p y todo
  | .const i c isChar isInt, x, todo => Todo (.const i c isChar isInt) x todo ∨ todo = [] ∧ known x c
  | .layered _ _ p, x, todo => Explains p x todo
  | .or _ _, _, _ => False
  | .record i fs ps, x, todo => Todo (.record i fs ps) x todo ∨
      ∃ fs' xs, fact x = some (.record fs' xs) ∧ ExplainsAll ps xs todo
  | .var _ _, _, todo => ∀ a ∈ todo, a.1.isWild = true
  | .vector i ps, x, todo => Todo (.vector i ps) x todo ∨
      ∃ xs, fact x = some (.vector xs) ∧ ExplainsAll ps xs todo
  | .wild _, _, todo => ∀ a ∈ todo, a.1.isWild = true

/-- What is to be tested for patterns at variables, in order. -/
def ExplainsAll : List NestedPat → List Var → List (Pat × Var) → Prop
  | [], [], todo => todo = []
  | p :: ps, x :: xs, todo => ∃ todo₁ todo₂, todo = todo₁ ++ todo₂ ∧ Explains p x todo₁ ∧
      ExplainsAll ps xs todo₂
  | _, _, _ => False

end

end Explains

variable {fact fact' : Var → Option Fact} {known known' : Var → Const → Prop}

theorem Explains.of_todo {x : Var} : ∀ {p : NestedPat} {q : Pat}, Pat.fromNestedPat p = some q →
    Explains fact known p x [(q, x)]
  | .con _ _ _, q, h | .conApp _ _ _ _, q, h | .const _ _ _ _, q, h | .record _ _ _, q, h
  | .vector _ _, q, h => .inl ⟨q, h, rfl⟩
  | .var _ _, _, h | .wild _, _, h => by
    intro a ha
    rw [List.mem_singleton.mp ha, ← Option.some.inj h]
    rfl
  | .layered _ _ p, _, h => of_todo (p := p) h
  | .or _ _, _, h => absurd h nofun

theorem ExplainsAll.of_todo : ∀ {ps : List NestedPat} {qs : List Pat} {xs : List Var},
    Pat.fromNestedPats ps = some qs → xs.length = qs.length →
    ExplainsAll fact known ps xs (qs.zip xs)
  | [], _, [], h, _ => by
    rw [← Option.some.inj h]
    rfl
  | [], _, _ :: _, h, hlen => by
    rw [← Option.some.inj h] at hlen
    exact absurd hlen nofun
  | p :: ps, _, xs, h, hlen => by
    rw [Pat.fromNestedPats, Option.bind_eq_some_iff] at h
    obtain ⟨q, hq, h⟩ := h
    obtain ⟨qs, hqs, rfl⟩ := Option.map_eq_some_iff.mp h
    cases xs with
    | nil => exact absurd hlen nofun
    | cons x xs =>
      exact ⟨[(q, x)], qs.zip xs, rfl, .of_todo hq, .of_todo hqs (Nat.succ_inj.mp hlen)⟩

theorem ExplainsAll.length : ∀ {ps : List NestedPat} {xs : List Var} {todo : List (Pat × Var)},
    ExplainsAll fact known ps xs todo → ps.length = xs.length
  | [], [], _, _ => rfl
  | [], _ :: _, _, h | _ :: _, [], _, h => h.elim
  | _ :: _, _ :: _, _, ⟨_, _, _, _, h⟩ => congrArg (· + 1) h.length

mutual

/-- More facts explain no less. -/
theorem Explains.mono (hfact : ∀ x f, fact x = some f → fact' x = some f)
    (hknown : ∀ x c, known x c → known' x c) : ∀ {p : NestedPat} {x : Var} {todo : List (Pat × Var)},
      Explains fact known p x todo → Explains fact' known' p x todo
  | .con _ _ _, _, _, h => h.imp_right fun h => ⟨h.1, hfact _ _ h.2⟩
  | .conApp _ _ _ _, _, _, h => h.imp_right fun ⟨y, hy, h⟩ => ⟨y, hfact _ _ hy, h.mono hfact hknown⟩
  | .const _ _ _ _, _, _, h => h.imp_right fun h => ⟨h.1, hknown _ _ h.2⟩
  | .layered _ _ p, _, _, h => Explains.mono (p := p) hfact hknown h
  | .or _ _, _, _, h => h
  | .record _ _ _, _, _, h =>
    h.imp_right fun ⟨fs, xs, hx, h⟩ => ⟨fs, xs, hfact _ _ hx, h.mono hfact hknown⟩
  | .var _ _, _, _, h => h
  | .vector _ _, _, _, h => h.imp_right fun ⟨xs, hx, h⟩ => ⟨xs, hfact _ _ hx, h.mono hfact hknown⟩
  | .wild _, _, _, h => h

theorem ExplainsAll.mono (hfact : ∀ x f, fact x = some f → fact' x = some f)
    (hknown : ∀ x c, known x c → known' x c) :
    ∀ {ps : List NestedPat} {xs : List Var} {todo : List (Pat × Var)},
      ExplainsAll fact known ps xs todo → ExplainsAll fact' known' ps xs todo
  | [], [], _, h => h
  | [], _ :: _, _, h | _ :: _, [], _, h => h.elim
  | _ :: _, _ :: _, _, ⟨todo₁, todo₂, heq, h, h'⟩ =>
    ⟨todo₁, todo₂, heq, h.mono hfact hknown, h'.mono hfact hknown⟩

end

theorem Todo.replace {q : Pat} {y : Var} {new : List (Pat × Var)}
    (hnew : ∀ p, Pat.fromNestedPat p = some q → Explains fact known p y new) {p : NestedPat} {x : Var}
    {todo : List (Pat × Var)} (h : Todo p x ((q, y) :: todo)) : Explains fact known p x (new ++ todo) := by
  obtain ⟨q', hq', heq⟩ := h
  obtain ⟨hhead, rfl⟩ := List.cons.inj heq
  obtain ⟨rfl, rfl⟩ := Prod.mk.inj hhead
  rw [List.append_nil]
  exact hnew p hq'

mutual

/-- **A test settles the first pattern**: what it leaves takes its place. -/
theorem Explains.replace {q : Pat} {y : Var} {new : List (Pat × Var)}
    (hfact : ∀ x f, fact x = some f → fact' x = some f) (hknown : ∀ x c, known x c → known' x c)
    (hnew : ∀ p, Pat.fromNestedPat p = some q → Explains fact' known' p y new) :
    ∀ {p : NestedPat} {x : Var} {todo : List (Pat × Var)},
      Explains fact known p x ((q, y) :: todo) → Explains fact' known' p x (new ++ todo)
  | .con _ _ _, _, _, h | .const _ _ _ _, _, _, h => h.elim (Todo.replace hnew) fun h => absurd h.1 nofun
  | .var _ _, _, _, h | .wild i, _, _, h => by
    obtain ⟨hq, htodo⟩ := List.forall_mem_cons.mp h
    have hnew' := hnew (.wild ⟨.intInf, .heap⟩) (congrArg some (Pat.isWild_iff.mp hq).symm)
    exact List.forall_mem_append.mpr ⟨hnew', htodo⟩
  | .conApp _ _ _ p, _, _, h => by
    obtain h | ⟨z, hz, h⟩ := h
    · exact h.replace hnew
    · exact .inr ⟨z, hfact _ _ hz, Explains.replace (p := p) hfact hknown hnew h⟩
  | .layered _ _ p, _, _, h => Explains.replace (p := p) hfact hknown hnew h
  | .or _ _, _, _, h => h.elim
  | .record _ _ ps, _, _, h => by
    obtain h | ⟨fs, xs, hx, h⟩ := h
    · exact h.replace hnew
    · exact .inr ⟨fs, xs, hfact _ _ hx, ExplainsAll.replace hfact hknown hnew h⟩
  | .vector _ ps, _, _, h => by
    obtain h | ⟨xs, hx, h⟩ := h
    · exact h.replace hnew
    · exact .inr ⟨xs, hfact _ _ hx, ExplainsAll.replace hfact hknown hnew h⟩

theorem ExplainsAll.replace {q : Pat} {y : Var} {new : List (Pat × Var)}
    (hfact : ∀ x f, fact x = some f → fact' x = some f) (hknown : ∀ x c, known x c → known' x c)
    (hnew : ∀ p, Pat.fromNestedPat p = some q → Explains fact' known' p y new) :
    ∀ {ps : List NestedPat} {xs : List Var} {todo : List (Pat × Var)},
      ExplainsAll fact known ps xs ((q, y) :: todo) → ExplainsAll fact' known' ps xs (new ++ todo)
  | [], [], _, h => absurd h nofun
  | [], _ :: _, _, h | _ :: _, [], _, h => h.elim
  | p :: ps, x :: xs, todo, h => by
    obtain ⟨todo₁, todo₂, heq, h₁, h₂⟩ := h
    obtain ⟨rfl, rfl⟩ | ⟨todo₁', rfl, rfl⟩ := List.cons_eq_append_iff.mp heq
    · exact ⟨[], new ++ todo, rfl, h₁.mono hfact hknown, ExplainsAll.replace hfact hknown hnew h₂⟩
    · refine ⟨new ++ todo₁', todo₂, (List.append_assoc _ _ _).symm, ?_, h₂.mono hfact hknown⟩
      exact Explains.replace hfact hknown hnew h₁

end

/-! ## What each kind of test leaves -/

section Kinds

variable {x y : Var}

theorem Explains.of_wild {todo : List (Pat × Var)} (htodo : ∀ a ∈ todo, a.1.isWild = true) :
    ∀ {p : NestedPat}, Pat.fromNestedPat p = some .wild → Explains fact known p x todo
  | .con _ _ _, h | .const _ _ _ _, h | .or _ _, h => absurd h nofun
  | .conApp _ _ _ _, h | .record _ _ _, h | .vector _ _, h => by
    obtain ⟨_, -, h⟩ := Option.map_eq_some_iff.mp h
    exact absurd h nofun
  | .layered _ _ p, h => of_wild (p := p) htodo h
  | .var _ _, _ | .wild _, _ => htodo

theorem Explains.of_con {c : Con} {targs : List Ty} (hx : fact x = some (.con c none)) :
    ∀ {p : NestedPat}, Pat.fromNestedPat p = some (.con c targs) → Explains fact known p x []
  | .con _ _ _, h => by
    obtain ⟨rfl, rfl⟩ := Pat.con.inj (Option.some.inj h)
    exact .inr ⟨rfl, hx⟩
  | .conApp _ _ _ _, h | .record _ _ _, h | .vector _ _, h => by
    obtain ⟨_, -, h⟩ := Option.map_eq_some_iff.mp h
    exact absurd h nofun
  | .layered _ _ p, h => of_con (p := p) hx h
  | .const _ _ _ _, h | .or _ _, h | .var _ _, h | .wild _, h => absurd h nofun

theorem Explains.of_conApp {c : Con} {targs : List Ty} {q : Pat} {ty : Ty}
    (hx : fact x = some (.con c (some y))) : ∀ {p : NestedPat},
      Pat.fromNestedPat p = some (.conApp c targs q ty) → Explains fact known p x [(q, y)]
  | .conApp _ _ _ _, h => by
    obtain ⟨q', hq', h⟩ := Option.map_eq_some_iff.mp h
    obtain ⟨rfl, -, rfl, -⟩ := Pat.conApp.inj h
    exact .inr ⟨y, hx, .of_todo hq'⟩
  | .record _ _ _, h | .vector _ _, h => by
    obtain ⟨_, -, h⟩ := Option.map_eq_some_iff.mp h
    exact absurd h nofun
  | .layered _ _ p, h => of_conApp (p := p) hx h
  | .con _ _ _, h | .const _ _ _ _, h | .or _ _, h | .var _ _, h | .wild _, h => absurd h nofun

theorem Explains.of_const {c : Const} {isChar isInt : Bool} (hx : known x c) : ∀ {p : NestedPat},
    Pat.fromNestedPat p = some (.const c isChar isInt) → Explains fact known p x []
  | .const _ _ _ _, h => by
    obtain ⟨rfl, -⟩ := Pat.const.inj (Option.some.inj h)
    exact .inr ⟨rfl, hx⟩
  | .conApp _ _ _ _, h | .record _ _ _, h | .vector _ _, h => by
    obtain ⟨_, -, h⟩ := Option.map_eq_some_iff.mp h
    exact absurd h nofun
  | .layered _ _ p, h => of_const (p := p) hx h
  | .con _ _ _, h | .or _ _, h | .var _ _, h | .wild _, h => absurd h nofun

theorem Explains.of_record {fs fs' : List Field} {qs : List Pat} {xs : List Var}
    (hx : fact x = some (.record fs' xs)) (hlen : xs.length = qs.length) : ∀ {p : NestedPat},
      Pat.fromNestedPat p = some (.record fs qs) → Explains fact known p x (qs.zip xs)
  | .record _ _ _, h => by
    obtain ⟨qs', hqs', h⟩ := Option.map_eq_some_iff.mp h
    obtain ⟨-, rfl⟩ := Pat.record.inj h
    exact .inr ⟨fs', xs, hx, .of_todo hqs' hlen⟩
  | .conApp _ _ _ _, h | .vector _ _, h => by
    obtain ⟨_, -, h⟩ := Option.map_eq_some_iff.mp h
    exact absurd h nofun
  | .layered _ _ p, h => of_record (p := p) hx hlen h
  | .con _ _ _, h | .const _ _ _ _, h | .or _ _, h | .var _ _, h | .wild _, h => absurd h nofun

theorem Explains.of_vector {qs : List Pat} {xs : List Var} (hx : fact x = some (.vector xs))
    (hlen : xs.length = qs.length) : ∀ {p : NestedPat},
      Pat.fromNestedPat p = some (.vector qs) → Explains fact known p x (qs.zip xs)
  | .vector _ _, h => by
    obtain ⟨qs', hqs', h⟩ := Option.map_eq_some_iff.mp h
    obtain rfl := Pat.vector.inj h
    exact .inr ⟨xs, hx, .of_todo hqs' hlen⟩
  | .conApp _ _ _ _, h | .record _ _ _, h => by
    obtain ⟨_, -, h⟩ := Option.map_eq_some_iff.mp h
    exact absurd h nofun
  | .layered _ _ p, h => of_vector (p := p) hx hlen h
  | .con _ _ _, h | .const _ _ _ _, h | .or _ _, h | .var _ _, h | .wild _, h => absurd h nofun

end Kinds

/-! ## Facts that hold -/

/-- The fact is true of the variable's value. -/
def Fact.Holds (μ : ℕ → Value) (σ : Env) (x : Var) : Fact → Prop
  | con c none => σ x = some (.con c)
  | con c (some y) => ∃ v w, σ x = some v ∧ v.arg μ c = some w ∧ σ y = some w
  | record _ xs => ∃ v vs, σ x = some v ∧ v.fields xs.length = some vs ∧
      List.Forall₂ (fun x v => σ x = some v) xs vs
  | vector xs => ∃ vs, σ x = some (.vector vs) ∧ List.Forall₂ (fun x v => σ x = some v) xs vs

/-- The facts, and what is known of constants, are true. -/
structure Respects (μ : ℕ → Value) (fact : Var → Option Fact) (known : Var → Const → Prop) (σ : Env) :
    Prop where
  fact : ∀ x f, fact x = some f → f.Holds μ σ x
  known : ∀ x c, known x c → ∃ v, σ x = some v ∧ Value.ofConst c = some v

theorem Todo.admits {p : NestedPat} {x : Var} {todo : List (Pat × Var)} {v : Value} {b : Bindings}
    (h : Todo p x todo) (hx : σ x = some v) (hb : p.bind μ v = some b) :
    ∀ a ∈ todo, ∀ w, σ a.2 = some w → a.1.admits μ w := by
  obtain ⟨q, hq, rfl⟩ := h
  intro a ha w hw
  obtain rfl := List.mem_singleton.mp ha
  obtain rfl := Option.some.inj (hx.symm.trans hw)
  exact NestedPat.admits_of_bind hq hb

mutual

/-- What is left of a pattern that matches is admitted. -/
theorem Explains.admits (hσ : Respects μ fact known σ) :
    ∀ {p : NestedPat} {x : Var} {todo : List (Pat × Var)} {v : Value} {b : Bindings},
      Explains fact known p x todo → σ x = some v → p.bind μ v = some b →
      ∀ a ∈ todo, ∀ w, σ a.2 = some w → a.1.admits μ w
  | .con _ _ _, _, _, _, _, h, hx, hb | .const _ _ _ _, _, _, _, _, h, hx, hb => by
    obtain h | ⟨rfl, -⟩ := h
    · exact h.admits hx hb
    · exact nofun
  | .conApp _ c _ p, x, _, v, _, h, hx, hb => by
    obtain h | ⟨y, hy, h⟩ := h
    · exact h.admits hx hb
    · obtain ⟨v', w, hv', hw, hyw⟩ := hσ.fact x _ hy
      obtain rfl := Option.some.inj (hx.symm.trans hv')
      rw [NestedPat.bind, hw] at hb
      exact Explains.admits (p := p) hσ h hyw hb
  | .layered _ _ p, _, _, _, _, h, hx, hb => by
    rw [NestedPat.bind] at hb
    obtain ⟨b, hb, -⟩ := Option.map_eq_some_iff.mp hb
    exact Explains.admits (p := p) hσ h hx hb
  | .or _ _, _, _, _, _, h, _, _ => h.elim
  | .record _ _ ps, x, _, v, _, h, hx, hb => by
    obtain h | ⟨fs, xs, hxs, h⟩ := h
    · exact h.admits hx hb
    · obtain ⟨v', vs, hv', hvs, hall⟩ := hσ.fact x _ hxs
      obtain rfl := Option.some.inj (hx.symm.trans hv')
      rw [NestedPat.bind, h.length, hvs] at hb
      exact ExplainsAll.admits hσ h hall hb
  | .var _ _, _, _, _, _, h, _, _ | .wild _, _, _, _, _, h, _, _ => by
    intro a ha w _
    rw [Pat.isWild_iff.mp (h a ha)]
    trivial
  | .vector _ ps, x, _, v, _, h, hx, hb => by
    obtain h | ⟨xs, hxs, h⟩ := h
    · exact h.admits hx hb
    · obtain ⟨vs, hvs, hall⟩ := hσ.fact x _ hxs
      obtain rfl := Option.some.inj (hx.symm.trans hvs)
      exact ExplainsAll.admits hσ h hall hb

theorem ExplainsAll.admits (hσ : Respects μ fact known σ) :
    ∀ {ps : List NestedPat} {xs : List Var} {todo : List (Pat × Var)} {vs : List Value} {b : Bindings},
      ExplainsAll fact known ps xs todo → List.Forall₂ (fun x v => σ x = some v) xs vs →
      NestedPat.bindAll μ ps vs = some b → ∀ a ∈ todo, ∀ w, σ a.2 = some w → a.1.admits μ w
  | [], [], _, _, _, h, _, _ => by
    obtain rfl := h
    exact nofun
  | [], _ :: _, _, _, _, h, _, _ | _ :: _, [], _, _, _, h, _, _ => h.elim
  | p :: ps, x :: xs, _, _, _, h, hall, hb => by
    obtain ⟨todo₁, todo₂, rfl, h₁, h₂⟩ := h
    cases hall with
    | cons hv hvs =>
      rw [NestedPat.bindAll, Option.bind_eq_some_iff] at hb
      obtain ⟨ρ, hρ, hb⟩ := hb
      obtain ⟨b, hb, -⟩ := Option.map_eq_some_iff.mp hb
      intro a ha
      obtain ha | ha := List.mem_append.mp ha
      · exact Explains.admits hσ h₁ hv hρ a ha
      · exact ExplainsAll.admits hσ h₂ hvs hb a ha

end

/-! ## The variables of a pattern -/

/-- The names stand for the values. -/
def Names (σ : Env) : List (Var × Var) → Bindings → Prop :=
  List.Forall₂ fun a b => a.1 = b.1 ∧ σ a.2 = some b.2

theorem Names.lookup {env : List (Var × Var)} {b : Bindings} (h : Names σ env b) (x : Var) :
    (List.lookup x env).bind σ = List.lookup x b := by
  induction h with
  | nil => rfl
  | @cons a a' _ _ ha _ ih =>
    obtain ⟨y, z⟩ := a
    obtain ⟨y', w⟩ := a'
    obtain ⟨rfl, hz⟩ := ha
    rw [List.lookup_cons, List.lookup_cons]
    cases x == y with
    | true => exact hz
    | false => exact ih

mutual

/-- **A pattern of which nothing is left is found**: its variables have names. -/
theorem Explains.bindLoop : ∀ {p : NestedPat} {x : Var} {todo : List (Pat × Var)},
    Explains fact known p x todo → (∀ a ∈ todo, a.1.isWild = true) →
    ∃ env, (∀ env', Facts.bindLoop fact p x env' = some (env ++ env')) ∧
      ∀ {μ : ℕ → Value} {σ : Env} {v : Value}, Respects μ fact known σ → σ x = some v →
        ∃ b, p.bind μ v = some b ∧ Names σ env b
  | .con i c targs, x, _, h, hw => by
    obtain ⟨q, hq, rfl⟩ | ⟨rfl, hx⟩ := h
    · rw [← Option.some.inj hq] at hw
      exact absurd (hw _ List.mem_cons_self) nofun
    · refine ⟨[], fun _ => rfl, fun {μ σ v} hσ hv => ⟨[], ?_, .nil⟩⟩
      have : v = .con c := Option.some.inj (hv.symm.trans (hσ.fact x _ hx))
      rw [NestedPat.bind, if_pos this]
  | .conApp i c targs p, x, _, h, hw => by
    obtain ⟨q, hq, rfl⟩ | ⟨y, hy, h⟩ := h
    · obtain ⟨_, -, rfl⟩ := Option.map_eq_some_iff.mp hq
      exact absurd (hw _ List.mem_cons_self) nofun
    · obtain ⟨env, henv, hall⟩ := Explains.bindLoop h hw
      refine ⟨env, fun env' => ?_, fun {μ σ v} hσ hv => ?_⟩
      · rw [Facts.bindLoop, hy]
        exact henv env'
      · obtain ⟨v', w, hv', hw, hyw⟩ := hσ.fact x _ hy
        obtain rfl := Option.some.inj (hv.symm.trans hv')
        rw [NestedPat.bind, hw]
        exact hall hσ hyw
  | .const i c _ _, x, _, h, hw => by
    obtain ⟨q, hq, rfl⟩ | ⟨rfl, hx⟩ := h
    · rw [← Option.some.inj hq] at hw
      exact absurd (hw _ List.mem_cons_self) nofun
    · refine ⟨[], fun _ => rfl, fun {μ σ v} hσ hv => ⟨[], ?_, .nil⟩⟩
      obtain ⟨v', hv', hc⟩ := hσ.known x c hx
      rw [NestedPat.bind, if_pos (hc.trans (hv'.symm.trans hv))]
  | .layered i y p, x, _, h, hw => by
    obtain ⟨env, henv, hall⟩ := Explains.bindLoop (p := p) h hw
    refine ⟨env ++ [(y, x)], fun env' => ?_, fun {μ σ v} hσ hv => ?_⟩
    · rw [Facts.bindLoop, henv, List.append_assoc]
      rfl
    · obtain ⟨b, hb, hnames⟩ := hall hσ hv
      refine ⟨b ++ [(y, v)], ?_, List.rel_append hnames (.cons ⟨rfl, hv⟩ .nil)⟩
      rw [NestedPat.bind, hb]
      rfl
  | .or _ _, _, _, h, _ => h.elim
  | .record i fs ps, x, _, h, hw => by
    obtain ⟨q, hq, rfl⟩ | ⟨fs', xs, hxs, h⟩ := h
    · obtain ⟨_, -, rfl⟩ := Option.map_eq_some_iff.mp hq
      exact absurd (hw _ List.mem_cons_self) nofun
    · obtain ⟨env, henv, hall⟩ := ExplainsAll.bindLoops h hw
      refine ⟨env, fun env' => ?_, fun {μ σ v} hσ hv => ?_⟩
      · rw [Facts.bindLoop, hxs]
        exact henv env'
      · obtain ⟨v', vs, hv', hvs, hxvs⟩ := hσ.fact x _ hxs
        obtain rfl := Option.some.inj (hv.symm.trans hv')
        rw [NestedPat.bind, h.length, hvs]
        exact hall hσ hxvs
  | .var i y, x, _, h, _ => by
    refine ⟨[(y, x)], fun _ => rfl, fun {μ σ v} _ hv => ⟨[(y, v)], rfl, .cons ⟨rfl, hv⟩ .nil⟩⟩
  | .vector i ps, x, _, h, hw => by
    obtain ⟨q, hq, rfl⟩ | ⟨xs, hxs, h⟩ := h
    · obtain ⟨_, -, rfl⟩ := Option.map_eq_some_iff.mp hq
      exact absurd (hw _ List.mem_cons_self) nofun
    · obtain ⟨env, henv, hall⟩ := ExplainsAll.bindLoops h hw
      refine ⟨env, fun env' => ?_, fun {μ σ v} hσ hv => ?_⟩
      · rw [Facts.bindLoop, hxs]
        exact henv env'
      · obtain ⟨vs, hvs, hxvs⟩ := hσ.fact x _ hxs
        obtain rfl := Option.some.inj (hv.symm.trans hvs)
        exact hall hσ hxvs
  | .wild _, x, _, _, _ => ⟨[], fun _ => rfl, fun _ _ => ⟨[], rfl, .nil⟩⟩

theorem ExplainsAll.bindLoops : ∀ {ps : List NestedPat} {xs : List Var} {todo : List (Pat × Var)},
    ExplainsAll fact known ps xs todo → (∀ a ∈ todo, a.1.isWild = true) →
    ∃ env, (∀ env', Facts.bindLoops fact ps xs env' = some (env ++ env')) ∧
      ∀ {μ : ℕ → Value} {σ : Env} {vs : List Value}, Respects μ fact known σ →
        List.Forall₂ (fun x v => σ x = some v) xs vs →
        ∃ b, NestedPat.bindAll μ ps vs = some b ∧ Names σ env b
  | [], [], _, _, _ => by
    refine ⟨[], fun _ => rfl, fun {μ σ vs} _ hall => ?_⟩
    cases hall
    exact ⟨[], rfl, .nil⟩
  | [], _ :: _, _, h, _ | _ :: _, [], _, h, _ => h.elim
  | p :: ps, x :: xs, _, h, hw => by
    obtain ⟨todo₁, todo₂, rfl, h₁, h₂⟩ := h
    obtain ⟨env₁, henv₁, hall₁⟩ := Explains.bindLoop h₁ fun a ha => hw a (List.mem_append_left _ ha)
    obtain ⟨env₂, henv₂, hall₂⟩ := ExplainsAll.bindLoops h₂ fun a ha => hw a (List.mem_append_right _ ha)
    refine ⟨env₂ ++ env₁, fun env' => ?_, fun {μ σ vs} hσ hvs => ?_⟩
    · rw [Facts.bindLoops, henv₁, Option.bind_some, henv₂, List.append_assoc]
    · cases hvs with
      | cons hv hvs =>
        obtain ⟨b₁, hb₁, hnames₁⟩ := hall₁ hσ hv
        obtain ⟨b₂, hb₂, hnames₂⟩ := hall₂ hσ hvs
        refine ⟨b₂ ++ b₁, ?_, List.rel_append hnames₂ hnames₁⟩
        rw [NestedPat.bindAll, hb₁, Option.bind_some, hb₂]
        rfl

end

end MLton.MatchCompile
