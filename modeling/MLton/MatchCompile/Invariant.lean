import Mathlib.Algebra.Order.BigOperators.Group.List
import Mathlib.Algebra.Order.Ring.Nat
import MLton.MatchCompile.Explained
import MLton.MatchCompile.Split

/-!
# MatchCompile/Invariant — what every call of the compiler is given

`Ready` is what the compiler keeps about its variables, rules and facts, and `Fits` is what the values of
the variables are when the compiled expression gets there.  Every test of the first column replaces it by
new columns, for the rules that may still match; `Ready.next`, `Fits.next` and `findSome?_next` say what
that keeps.
-/

namespace MLton.MatchCompile

/-! ## Environments -/

/-- The environments agree on the variables that are there already. -/
def Agree (n : ℕ) (σ σ' : Env) : Prop := ∀ x : Var, x.id < n → σ' x = σ x

theorem Agree.rfl {n : ℕ} {σ : Env} : Agree n σ σ := fun _ _ => Eq.refl _

theorem Env.bind_of_not_mem : ∀ {xs : List Var} {vs : List Value} {σ : Env} {x : Var}, x ∉ xs →
    σ.bind xs vs x = σ x
  | [], _, _, _, _ => rfl
  | _ :: _, [], _, _, _ => rfl
  | y :: xs, v :: vs, σ, x, h => by
    rw [Env.bind, bind_of_not_mem (fun hx => h (List.mem_cons_of_mem _ hx))]
    exact Function.update_of_ne (List.ne_of_not_mem_cons h) _ _

theorem Env.bind_forall₂ : ∀ {xs : List Var} {vs : List Value} {σ : Env}, xs.Nodup →
    xs.length = vs.length → List.Forall₂ (fun x v => σ.bind xs vs x = some v) xs vs
  | [], [], _, _, _ => .nil
  | [], _ :: _, _, _, h | _ :: _, [], _, _, h => absurd h nofun
  | x :: xs, v :: vs, σ, hnodup, hlen => by
    obtain ⟨hx, hnodup⟩ := List.nodup_cons.mp hnodup
    refine .cons ?_ (bind_forall₂ hnodup (Nat.succ_inj.mp hlen))
    rw [Env.bind, bind_of_not_mem hx]
    exact Function.update_self _ _ _

theorem Agree.bind {n : ℕ} {σ : Env} {xs : List Var} {vs : List Value} (h : ∀ x ∈ xs, n ≤ x.id) :
    Agree n σ (σ.bind xs vs) :=
  fun x hx => Env.bind_of_not_mem fun hmem => absurd (h x hmem) (by omega)

/-! ## The state of the compiler -/

/-- The variables of a fact. -/
def Fact.vars : Fact → List Var
  | con _ arg => arg.toList
  | record _ xs => xs
  | vector xs => xs

variable (D : Datatypes) (seqIndex : ℕ) {β : Type}

/-- **What every call is given**: typed rows that the facts explain, and a row that matches everything. -/
structure Ready (test : Var) (Ts : List Ty) (vars : List (Var × Ty)) (rules : List (Rule β)) (facts : Facts)
    (known : Var → Const → Prop) (n : ℕ) : Prop where
  types : List.Forall₂ (fun x T => x.2 = Ty.loopTy T) vars Ts
  nodup : (vars.map Prod.fst).Nodup
  below : ∀ x ∈ vars, x.1.id < n
  facts_nodup : (facts.map Prod.fst).Nodup
  apart : ∀ x ∈ vars, x.1 ∉ facts.map Prod.fst
  facts_below : ∀ f ∈ facts, f.1.id < n ∧ ∀ y ∈ f.2.vars, y.id < n
  known_below : ∀ x c, known x c → x.id < n
  test_below : test.id < n
  typed : ∀ r ∈ rules, Pat.HaveTys D seqIndex r.pats Ts
  explains : ∀ r ∈ rules,
    Explains (fun x => List.lookup x facts) known r.nestedPat test (r.pats.zip (vars.map Prod.fst))
  fallback : ∃ r ∈ rules, r.allWild = true

/-- **The values of the variables** when the expression gets here. -/
structure Fits (μ : ℕ → Value) (Λ : ℕ → Ty) (test : Var) (v₀ : Value) (Ts : List Ty)
    (vars : List (Var × Ty)) (facts : Facts) (known : Var → Const → Prop) (σ : Env) : Prop where
  test : σ test = some v₀
  vars : List.Forall₂ (fun x T => ∃ v, σ x.1 = some v ∧ v.HasTy D seqIndex Λ T) vars Ts
  respects : Respects μ (fun x => List.lookup x facts) known σ

variable {D seqIndex}

theorem Pat.HaveTys.length : ∀ {ps : List Pat} {ts : List Ty}, Pat.HaveTys D seqIndex ps ts →
    ps.length = ts.length
  | [], [], _ => rfl
  | [], _ :: _, h | _ :: _, [], h => h.elim
  | _ :: _, _ :: _, h => congrArg (· + 1) (length h.2)

theorem Pat.HaveTys.append : ∀ {ps : List Pat} {ts : List Ty} {qs : List Pat} {us : List Ty},
    Pat.HaveTys D seqIndex ps ts → Pat.HaveTys D seqIndex qs us →
    Pat.HaveTys D seqIndex (ps ++ qs) (ts ++ us)
  | [], [], _, _, _, h => h
  | [], _ :: _, _, _, h, _ | _ :: _, [], _, _, h, _ => h.elim
  | _ :: _, _ :: _, _, _, h, h' => ⟨h.1, append h.2 h'⟩

theorem Pat.haveTys_replicate_wild : ∀ ts : List Ty,
    Pat.HaveTys D seqIndex (List.replicate ts.length .wild) ts
  | [] => trivial
  | _ :: ts => ⟨trivial, haveTys_replicate_wild ts⟩

theorem Pat.haveTys_of_haveTy : ∀ {ps : List Pat} {t : Ty}, Pat.HaveTy D seqIndex ps t →
    Pat.HaveTys D seqIndex ps (List.replicate ps.length t)
  | [], _, _ => trivial
  | _ :: _, _, h => ⟨h.1, haveTys_of_haveTy h.2⟩

/-- A row has a first pattern. -/
theorem Rule.pats_eq {r : Rule β} {T : Ty} {Ts : List Ty} (h : Pat.HaveTys D seqIndex r.pats (T :: Ts)) :
    r.pats = r.head :: r.pats.tail ∧ r.head.HasTy D seqIndex T ∧ Pat.HaveTys D seqIndex r.pats.tail Ts := by
  unfold Rule.head
  cases hp : r.pats with
  | nil => exact (hp ▸ h : Pat.HaveTys D seqIndex [] (T :: Ts)).elim
  | cons p ps => exact ⟨rfl, (hp ▸ h : Pat.HaveTys D seqIndex (p :: ps) (T :: Ts))⟩

/-! ## A test of the first column -/

theorem findSome?_filter {α γ : Type} {p : α → Bool} {g : α → Option γ} : ∀ {xs : List α},
    (∀ x ∈ xs, p x = false → g x = none) → (xs.filter p).findSome? g = xs.findSome? g
  | [], _ => rfl
  | x :: xs, h => by
    obtain ⟨hx, hxs⟩ := List.forall_mem_cons.mp h
    cases hp : p x with
    | true => rw [List.filter_cons_of_pos hp, List.findSome?_cons, List.findSome?_cons, findSome?_filter hxs]
    | false =>
      rw [List.filter_cons_of_neg (by rw [hp]; exact nofun), findSome?_filter hxs, List.findSome?_cons, hx hp]

theorem Fact.Holds.agree {μ : ℕ → Value} {n : ℕ} {σ σ' : Env} {x : Var} : ∀ {f : Fact},
    f.Holds μ σ x → Agree n σ σ' → x.id < n → (∀ y ∈ f.vars, y.id < n) → f.Holds μ σ' x
  | .con _ none, h, hagree, hx, _ => (hagree x hx).trans h
  | .con _ (some y), ⟨v, w, hv, hw, hy⟩, hagree, hx, hvars =>
    ⟨v, w, (hagree x hx).trans hv, hw, (hagree y (hvars y List.mem_cons_self)).trans hy⟩
  | .record _ xs, ⟨v, vs, hv, hvs, hall⟩, hagree, hx, hvars =>
    ⟨v, vs, (hagree x hx).trans hv, hvs,
      ((List.forall₂_and_left xs vs).mpr ⟨hvars, hall⟩).imp fun y _ hy => (hagree y hy.1).trans hy.2⟩
  | .vector xs, ⟨vs, hv, hall⟩, hagree, hx, hvars =>
    ⟨vs, (hagree x hx).trans hv,
      ((List.forall₂_and_left xs vs).mpr ⟨hvars, hall⟩).imp fun y _ hy => (hagree y hy.1).trans hy.2⟩

/-! ### The size of what is left -/

theorem Pat.weights_append : ∀ ps qs : List Pat, weights (ps ++ qs) = weights ps + weights qs
  | [], _ => (Nat.zero_add _).symm
  | p :: ps, qs => by
    rw [List.cons_append, weights, weights, weights_append ps qs, Nat.add_assoc]

theorem sum_map_add_le {α : Type} {g h : α → ℕ} {m : ℕ} : ∀ {xs : List α}, (∀ x ∈ xs, g x ≤ h x) →
    (∃ x ∈ xs, g x + m ≤ h x) → (xs.map g).sum + m ≤ (xs.map h).sum
  | [], _, ⟨_, hx, _⟩ => absurd hx List.not_mem_nil
  | x :: xs, hle, ⟨y, hy, hlt⟩ => by
    obtain ⟨hx, hxs⟩ := List.forall_mem_cons.mp hle
    rw [List.map_cons, List.map_cons, List.sum_cons, List.sum_cons]
    obtain rfl | hy := List.mem_cons.mp hy
    · have := List.sum_le_sum hxs
      omega
    · have := sum_map_add_le hxs ⟨y, hy, hlt⟩
      omega

/-- The rules after a test: those that may still match, with `f` of their first patterns in front. -/
def nextRules (asks : Pat → Bool) (f : Pat → List Pat) (rules : List (Rule β)) : List (Rule β) :=
  (keepRules asks rules).map (Rule.expand f)

theorem mem_keepRules {asks : Pat → Bool} {rules : List (Rule β)} {r : Rule β} :
    r ∈ keepRules asks rules ↔ r ∈ rules ∧ (r.head.isWild = true ∨ asks r.head = true) := by
  rw [keepRules, List.mem_filter, Bool.or_eq_true]

/-- **The facts after a test.** -/
structure FactsNext (x : Var) (n n' : ℕ) (facts facts' : Facts) : Prop where
  le : n ≤ n'
  eq : facts' = facts ∨ ∃ f : Fact, facts' = (x, f) :: facts ∧ ∀ y ∈ f.vars, y.id < n'

theorem FactsNext.same {x : Var} {n n' : ℕ} {facts : Facts} (h : n ≤ n') :
    FactsNext x n n' facts facts := ⟨h, .inl rfl⟩

theorem mem_of_lookup {facts : Facts} {x : Var} {f : Fact} (h : List.lookup x facts = some f) :
    (x, f) ∈ facts := by
  obtain ⟨facts₁, facts₂, rfl, -⟩ := List.lookup_eq_some_iff.mp h
  exact List.mem_append_right _ List.mem_cons_self

theorem lookup_eq_none_of_not_mem {facts : Facts} {x : Var} (h : x ∉ facts.map Prod.fst) :
    List.lookup x facts = none := by
  rw [List.lookup_eq_none_iff]
  intro f hf
  exact bne_iff_ne.mpr fun hx : x = f.1 => h (hx ▸ List.mem_map_of_mem hf)

theorem FactsNext.lookup {x : Var} {n n' : ℕ} {facts facts' : Facts} (h : FactsNext x n n' facts facts')
    (hx : x ∉ facts.map Prod.fst) {y : Var} {f : Fact} (hy : List.lookup y facts = some f) :
    List.lookup y facts' = some f := by
  obtain rfl | ⟨g, rfl, -⟩ := h.eq
  · exact hy
  · have hne : y ≠ x := fun hyx => by
      rw [hyx, lookup_eq_none_of_not_mem hx] at hy
      exact absurd hy nofun
    rwa [List.lookup_cons, beq_false_of_ne hne]

section Next

variable {test : Var} {T : Ty} {Ts Ss : List Ty} {var : Var × Ty} {vars news : List (Var × Ty)}
  {rules : List (Rule β)} {facts facts' : Facts} {known known' : Var → Const → Prop} {n n' : ℕ}
  {asks : Pat → Bool} {f : Pat → List Pat}

/-- The new columns. -/
structure Columns (n n' : ℕ) (news : List (Var × Ty)) (Ss : List Ty) : Prop where
  types : List.Forall₂ (fun x T => x.2 = Ty.loopTy T) news Ss
  nodup : (news.map Prod.fst).Nodup
  fresh : ∀ x ∈ news, n ≤ x.1.id ∧ x.1.id < n'

theorem Columns.nil : Columns n n' [] [] := ⟨.nil, List.nodup_nil, nofun⟩

/-- **A test keeps what every call is given.** -/
theorem Ready.next (h : Ready D seqIndex test (T :: Ts) (var :: vars) rules facts known n)
    (hcols : Columns n n' news Ss) (hfacts : FactsNext var.1 n n' facts facts')
    (hknown : ∀ x c, known x c → known' x c) (hbelow : ∀ x c, known' x c → x.id < n')
    (htyped : ∀ r ∈ keepRules asks rules, Pat.HaveTys D seqIndex (f r.head) Ss)
    (hexplains : ∀ r ∈ keepRules asks rules, ∀ p, Pat.fromNestedPat p = some r.head →
      Explains (fun x => List.lookup x facts') known' p var.1 ((f r.head).zip (news.map Prod.fst)))
    (hwild : (f .wild).all Pat.isWild = true) :
    Ready D seqIndex test (Ss ++ Ts) (news ++ vars) (nextRules asks f rules) facts' known' n' := by
  obtain ⟨hvar, hvars⟩ := List.nodup_cons.mp h.nodup
  obtain ⟨hvarn, hvarsn⟩ := List.forall_mem_cons.mp h.below
  obtain ⟨hvarf, hvarsf⟩ := List.forall_mem_cons.mp h.apart
  obtain ⟨-, htypes⟩ := List.forall₂_cons.mp h.types
  have hle := hfacts.le
  have hnew : ∀ x ∈ news, x.1 ∉ facts.map Prod.fst := by
    intro x hx hmem
    obtain ⟨g, hg, hgx⟩ := List.mem_map.mp hmem
    have hgn := (h.facts_below g hg).1
    have hxn := (hcols.fresh x hx).1
    rw [hgx] at hgn
    omega
  have hlen : ∀ r ∈ keepRules asks rules, (f r.head).length = (news.map Prod.fst).length := by
    intro r hr
    rw [(htyped r hr).length, List.length_map, hcols.types.length_eq]
  refine ⟨List.rel_append hcols.types htypes, ?_, ?_, ?_, ?_, ?_, hbelow, ?_, ?_, ?_, ?_⟩
  · rw [List.map_append, List.nodup_append]
    refine ⟨hcols.nodup, hvars, fun x hx y hy hxy => ?_⟩
    obtain ⟨x, hx', rfl⟩ := List.mem_map.mp hx
    obtain ⟨y, hy', rfl⟩ := List.mem_map.mp hy
    have hxn := (hcols.fresh x hx').1
    have hyn := hvarsn y hy'
    rw [hxy] at hxn
    omega
  · intro x hx
    obtain hx | hx := List.mem_append.mp hx
    · exact (hcols.fresh x hx).2
    · exact Nat.lt_of_lt_of_le (hvarsn x hx) hle
  · obtain rfl | ⟨g, rfl, -⟩ := hfacts.eq
    · exact h.facts_nodup
    · exact List.nodup_cons.mpr ⟨hvarf, h.facts_nodup⟩
  · intro x hx
    have hxf : x.1 ∉ facts.map Prod.fst ∧ x.1 ≠ var.1 := by
      obtain hx | hx := List.mem_append.mp hx
      · refine ⟨hnew x hx, fun hxv => ?_⟩
        have hxn := (hcols.fresh x hx).1
        rw [hxv] at hxn
        omega
      · exact ⟨hvarsf x hx, fun hxv => hvar (hxv ▸ List.mem_map_of_mem hx)⟩
    obtain rfl | ⟨g, rfl, -⟩ := hfacts.eq
    · exact hxf.1
    · exact fun hmem => (List.mem_cons.mp hmem).elim hxf.2 hxf.1
  · have hold : ∀ g ∈ facts, g.1.id < n' ∧ ∀ y ∈ g.2.vars, y.id < n' := fun g hg =>
      ⟨Nat.lt_of_lt_of_le (h.facts_below g hg).1 hle, fun y hy => Nat.lt_of_lt_of_le ((h.facts_below g hg).2 y hy) hle⟩
    obtain rfl | ⟨g, rfl, hg⟩ := hfacts.eq
    · exact hold
    · exact List.forall_mem_cons.mpr ⟨⟨Nat.lt_of_lt_of_le hvarn hle, hg⟩, hold⟩
  · exact Nat.lt_of_lt_of_le h.test_below hle
  · intro r hr
    obtain ⟨r, hkept, rfl⟩ := List.mem_map.mp hr
    exact (htyped r hkept).append (Rule.pats_eq (h.typed r (mem_keepRules.mp hkept).1)).2.2
  · intro r hr
    obtain ⟨r, hkept, rfl⟩ := List.mem_map.mp hr
    have hr' := (mem_keepRules.mp hkept).1
    have hex := h.explains r hr'
    rw [(Rule.pats_eq (h.typed r hr')).1, List.map_cons, List.zip_cons_cons] at hex
    have := hex.replace (fun x g hx => hfacts.lookup hvarf hx) hknown (hexplains r hkept)
    rwa [← List.zip_append (hlen r hkept), ← List.map_append] at this
  · obtain ⟨r, hr, hw⟩ := h.fallback
    have hpats := (Rule.pats_eq (h.typed r hr)).1
    rw [Rule.allWild, hpats, List.all_cons, Bool.and_eq_true] at hw
    refine ⟨_, List.mem_map_of_mem (mem_keepRules.mpr ⟨hr, .inl hw.1⟩), ?_⟩
    have hhead : r.head = .wild := by
      cases hp : r.head <;> first | rfl | exact absurd (hp ▸ hw.1) nofun
    rw [Rule.allWild, Rule.expand, List.all_append, hhead, hwild, hw.2]
    rfl

/-- A test makes what is left smaller. -/
theorem size_next (hpats : ∀ r ∈ rules, r.pats = r.head :: r.pats.tail)
    (hle : ∀ r ∈ keepRules asks rules, Pat.weights (f r.head) ≤ r.head.weight)
    (hlt : ∃ r ∈ keepRules asks rules, Pat.weights (f r.head) + news.length ≤ r.head.weight) :
    size (news ++ vars) (nextRules asks f rules) < size (var :: vars) rules := by
  have hweights : ∀ r ∈ keepRules asks rules,
      Pat.weights r.pats = r.head.weight + Pat.weights r.pats.tail := by
    intro r hr
    rw [congrArg Pat.weights (hpats r (mem_keepRules.mp hr).1)]
    rfl
  have hsub : ((keepRules asks rules).map fun r => Pat.weights r.pats).sum
      ≤ (rules.map fun r => Pat.weights r.pats).sum :=
    (List.filter_sublist.map _).sum_le_sum fun _ _ => Nat.zero_le _
  have hnext : ((keepRules asks rules).map fun r => Pat.weights (f r.head ++ r.pats.tail)).sum + news.length
      ≤ ((keepRules asks rules).map fun r => Pat.weights r.pats).sum := by
    refine sum_map_add_le (fun r hr => ?_) (hlt.imp fun r ⟨hr, hlt⟩ => ⟨hr, ?_⟩)
    · have := hle r hr
      rw [Pat.weights_append, hweights r hr]
      omega
    · rw [Pat.weights_append, hweights r hr]
      omega
  rw [size, size, nextRules, List.map_map, List.length_append, List.length_cons]
  have hmap : ((keepRules asks rules).map ((fun r : Rule β => Pat.weights r.pats) ∘ Rule.expand f)).sum
      = ((keepRules asks rules).map fun r => Pat.weights (f r.head ++ r.pats.tail)).sum := rfl
  omega

/-- **The values after a test.** -/
theorem Fits.next {μ : ℕ → Value} {Λ : ℕ → Ty} {v₀ : Value} {σ σ' : Env}
    (hready : Ready D seqIndex test (T :: Ts) (var :: vars) rules facts known n)
    (h : Fits D seqIndex μ Λ test v₀ (T :: Ts) (var :: vars) facts known σ) (hagree : Agree n σ σ')
    (hnews : List.Forall₂ (fun x T => ∃ v, σ' x.1 = some v ∧ v.HasTy D seqIndex Λ T) news Ss)
    (hfacts : facts' = facts ∨ ∃ f : Fact, facts' = (var.1, f) :: facts ∧ f.Holds μ σ' var.1)
    (hknown : ∀ x c, known' x c → known x c ∨ ∃ v, σ' x = some v ∧ Value.ofConst c = some v) :
    Fits D seqIndex μ Λ test v₀ (Ss ++ Ts) (news ++ vars) facts' known' σ' := by
  obtain ⟨-, hvars⟩ := List.forall₂_cons.mp h.vars
  have hold : ∀ x f, List.lookup x facts = some f → f.Holds μ σ' x := by
    intro x f hx
    have hmem := hready.facts_below (x, f) (mem_of_lookup hx)
    exact (h.respects.fact x f hx).agree hagree hmem.1 hmem.2
  refine ⟨(hagree _ hready.test_below).trans h.test, List.rel_append hnews ?_, ⟨fun x f hx => ?_, fun x c hx => ?_⟩⟩
  · have hbelow : ∀ x ∈ vars, x.1.id < n := fun x hx => hready.below x (List.mem_cons_of_mem _ hx)
    refine ((List.forall₂_and_left vars Ts).mpr ⟨hbelow, hvars⟩).imp ?_
    rintro x T ⟨hxn, v, hv, hT⟩
    exact ⟨v, (hagree _ hxn).trans hv, hT⟩
  · obtain rfl | ⟨g, rfl, hg⟩ := hfacts
    · exact hold x f hx
    · rw [List.lookup_cons] at hx
      split at hx
      next heq =>
        obtain rfl := Option.some.inj hx
        rwa [eq_of_beq heq]
      next => exact hold x f hx
  · obtain hx | hx := hknown x c hx
    · obtain ⟨v, hv, hc⟩ := h.respects.known x c hx
      exact ⟨v, (hagree _ (hready.known_below x c hx)).trans hv, hc⟩
    · exact hx

/-- **The rules that are left out do not match.** -/
theorem Ready.findSome?_next {ρ : Type} {μ : ℕ → Value} {Λ : ℕ → Ty} {v₀ w : Value} {σ : Env}
    (hready : Ready D seqIndex test (T :: Ts) (var :: vars) rules facts known n)
    (h : Fits D seqIndex μ Λ test v₀ (T :: Ts) (var :: vars) facts known σ) (hw : σ var.1 = some w)
    (hout : ∀ r ∈ rules, r.head.admits μ w → r.head.isWild = true ∨ asks r.head = true)
    (g : β → Bindings → ρ) :
    (nextRules asks f rules).findSome? (fun r => (r.nestedPat.bind μ v₀).map (g r.action))
      = rules.findSome? fun r => (r.nestedPat.bind μ v₀).map (g r.action) := by
  rw [nextRules, List.findSome?_map]
  refine findSome?_filter fun r hr hfalse => Option.map_eq_none_iff.mpr ?_
  refine Option.eq_none_iff_forall_ne_some.mpr fun b hb => ?_
  have hex := hready.explains r hr
  rw [(Rule.pats_eq (hready.typed r hr)).1, List.map_cons, List.zip_cons_cons] at hex
  have hadm := hex.admits h.respects h.test hb _ List.mem_cons_self w hw
  exact absurd ((Bool.or_eq_true _ _).mpr (hout r hr hadm)) (by rw [hfalse]; exact nofun)

end Next

end MLton.MatchCompile
