import MLton.MatchCompile.Correct

/-!
# MatchCompile/Whole — whole matches

The alternatives of the source's rows are the compiler's rules, and the first of them that matches is the
first row that matches; so the compiled expression runs the first row that matches, whenever the rows can
be compiled (`matchCompile_correct_iff`).
-/

namespace MLton.MatchCompile

variable {β : Type} {D : Datatypes} {seqIndex : ℕ} {test : Var} {caseType : Ty} {T : Ty} {n : ℕ}

/-! ## The alternatives of a typed pattern -/

namespace NestedPat

/-- A pattern without alternatives that has a type. -/
def Plain (D : Datatypes) (seqIndex : ℕ) (T : Ty) (p : NestedPat) : Prop :=
  p.ty = T.loopTy ∧ ∃ q, Pat.fromNestedPat p = some q ∧ q.HasTy D seqIndex T

theorem fromNestedPats_of_plain {ps : List NestedPat} {ts : List Ty}
    (h : List.Forall₂ (fun p T => p.Plain D seqIndex T) ps ts) :
    ∃ qs, Pat.fromNestedPats ps = some qs ∧ Pat.HaveTys D seqIndex qs ts := by
  induction h with
  | nil => exact ⟨[], rfl, trivial⟩
  | cons hplain _ ih =>
    obtain ⟨_, q, hq, hT⟩ := hplain
    obtain ⟨qs, hqs, hTs⟩ := ih
    refine ⟨q :: qs, ?_, hT, hTs⟩
    rw [Pat.fromNestedPats, hq, Option.bind_some, hqs]
    rfl

theorem haveTys_of_haveTy : ∀ {ps : List NestedPat} {t : Ty}, HaveTy D seqIndex ps t →
    HaveTys D seqIndex ps (List.replicate ps.length t)
  | [], _, _ => trivial
  | _ :: _, _, h => ⟨h.1, haveTys_of_haveTy h.2⟩

theorem haveTy_of_replicate : ∀ {qs : List Pat} {t : Ty} {k : ℕ},
    Pat.HaveTys D seqIndex qs (List.replicate k t) → Pat.HaveTy D seqIndex qs t
  | [], _, _, _ => trivial
  | _ :: _, _, 0, h => h.elim
  | _ :: _, _, _ + 1, h => ⟨h.1, haveTy_of_replicate h.2⟩

mutual

/-- **The alternatives of a typed pattern** are typed patterns without alternatives. -/
theorem plain_of_mem_flatten : ∀ {p : NestedPat} {T : Ty}, p.HasTy D seqIndex T → ∀ q ∈ p.flatten,
    q.Plain D seqIndex T
  | con i c targs, T, h, q, hq => by
    rw [List.mem_singleton.mp hq]
    exact ⟨h.1, _, rfl, h.2⟩
  | conApp i c targs p, T, h, q, hq => by
    obtain ⟨p', hp', rfl⟩ := List.mem_map.mp hq
    obtain ⟨hty, ts, t, htargs, hT, harg, hp⟩ := h
    obtain ⟨hty', q, hq, hqT⟩ := plain_of_mem_flatten hp p' hp'
    refine ⟨hty, .conApp c targs q p'.ty, ?_, ts, t, htargs, hT, harg, hty', hqT⟩
    rw [Pat.fromNestedPat, hq]
    rfl
  | const i c _ _, T, h, q, hq => by
    rw [List.mem_singleton.mp hq]
    exact ⟨h.1, _, rfl, h.2⟩
  | layered i x p, T, h, q, hq => by
    obtain ⟨p', hp', rfl⟩ := List.mem_map.mp hq
    exact ⟨h.1, (plain_of_mem_flatten h.2 p' hp').2⟩
  | or i ps, T, h, q, hq => plain_of_mem_flattenOr h.2 q hq
  | record i fs ps, T, h, q, hq => by
    obtain ⟨ps', hps', rfl⟩ := List.mem_map.mp hq
    obtain ⟨hty, ts, hT, hlen, hps⟩ := h
    obtain ⟨qs, hqs, hqsT⟩ := fromNestedPats_of_plain (plain_of_mem_flattens hps ps' hps')
    refine ⟨hty, .record fs qs, ?_, ts, hT, ?_, hqsT⟩
    · rw [Pat.fromNestedPat, hqs]
      rfl
    · rw [hlen, Pat.length_fromNestedPats hqs, length_of_mem_flattens hps']
  | var i x, T, h, q, hq => by
    rw [List.mem_singleton.mp hq]
    exact ⟨h, _, rfl, trivial⟩
  | vector i ps, T, h, q, hq => by
    obtain ⟨ps', hps', rfl⟩ := List.mem_map.mp hq
    obtain ⟨hty, t, hT, hlen, hps⟩ := h
    obtain ⟨qs, hqs, hqsT⟩ := fromNestedPats_of_plain (plain_of_mem_flattens (haveTys_of_haveTy hps) ps' hps')
    refine ⟨hty, .vector qs, ?_, t, hT, ?_, haveTy_of_replicate hqsT⟩
    · rw [Pat.fromNestedPat, hqs]
      rfl
    · rwa [Pat.length_fromNestedPats hqs, length_of_mem_flattens hps']
  | wild i, T, h, q, hq => by
    rw [List.mem_singleton.mp hq]
    exact ⟨h, _, rfl, trivial⟩

theorem plain_of_mem_flattenOr : ∀ {ps : List NestedPat} {T : Ty}, HaveTy D seqIndex ps T →
    ∀ q ∈ flattenOr ps, q.Plain D seqIndex T
  | [], _, _, _, hq => absurd hq List.not_mem_nil
  | p :: ps, T, h, q, hq => by
    obtain hq | hq := List.mem_append.mp hq
    · exact plain_of_mem_flatten h.1 q hq
    · exact plain_of_mem_flattenOr h.2 q hq

theorem plain_of_mem_flattens : ∀ {ps : List NestedPat} {ts : List Ty}, HaveTys D seqIndex ps ts →
    ∀ qs ∈ flattens ps, List.Forall₂ (fun p T => p.Plain D seqIndex T) qs ts
  | [], [], _, qs, hqs => by
    rw [List.mem_singleton.mp hqs]
    exact .nil
  | [], _ :: _, h, _, _ | _ :: _, [], h, _, _ => h.elim
  | p :: ps, t :: ts, h, qs, hqs => by
    rw [flattens] at hqs
    obtain ⟨fp, hfp, hqs⟩ := List.mem_flatMap.mp hqs
    obtain ⟨rest, hrest, rfl⟩ := List.mem_map.mp hqs
    exact .cons (plain_of_mem_flatten h.1 fp hfp) (plain_of_mem_flattens h.2 rest hrest)

end

/-- A pattern that matches everything has no alternatives. -/
theorem flatten_of_wild : ∀ {p : NestedPat}, Pat.fromNestedPat p = some .wild → p.flatten = [p]
  | con _ _ _, _ | const _ _ _ _, _ | var _ _, _ | wild _, _ => rfl
  | conApp _ _ _ _, h | record _ _ _, h | vector _ _, h => by
    obtain ⟨_, -, h⟩ := Option.map_eq_some_iff.mp h
    exact absurd h nofun
  | layered i x p, h => by
    rw [flatten, flatten_of_wild (p := p) h]
    rfl
  | or _ _, h => absurd h nofun

end NestedPat

/-! ## The rules of a match -/

/-- The rows of patterns without alternatives. -/
def rowsOf (cases : List (NestedPat × (ℕ → β))) : List Row :=
  (cases.flatMap fun c => c.1.flatten).filterMap fun p => (Pat.fromNestedPat p).map fun q => [q]

/-- The source's rows, an alternative each. -/
def alternatives (cases : List (NestedPat × (ℕ → β))) : List (NestedPat × β) :=
  cases.flatMap fun c => c.1.flatten.map fun p => (p, c.2 c.1.flatten.length)

/-- The rule of an alternative. -/
def ruleOf (c : NestedPat × β) : Option (Rule β) := do
  let q ← Pat.fromNestedPat c.1
  pure { pats := [q], action := c.2, nestedPat := c.1 }

theorem exists_of_ruleOf {c : NestedPat × β} {r : Rule β} (h : ruleOf c = some r) :
    ∃ q, Pat.fromNestedPat c.1 = some q ∧ r = { pats := [q], action := c.2, nestedPat := c.1 } := by
  obtain ⟨q, hq, hr⟩ := Option.bind_eq_some_iff.mp h
  exact ⟨q, hq, (Option.some.inj hr).symm⟩

theorem alternatives_map_fst (cases : List (NestedPat × (ℕ → β))) :
    (alternatives cases).map Prod.fst = cases.flatMap fun c => c.1.flatten := by
  rw [alternatives, List.map_flatMap]
  refine congrArg (cases.flatMap ·) (funext fun c => ?_)
  rw [List.map_map]
  exact List.map_id _

/-- **The rules** stand for the alternatives, in order. -/
theorem mapM_ruleOf : ∀ {alts : List (NestedPat × β)}, (∀ c ∈ alts, c.1.Plain D seqIndex T) →
    ∃ rules, alts.mapM ruleOf = some rules ∧ List.Forall₂ (fun c r => ruleOf c = some r) alts rules
  | [], _ => ⟨[], rfl, .nil⟩
  | c :: alts, h => by
    obtain ⟨⟨-, q, hq, -⟩, hrest⟩ := List.forall_mem_cons.mp h
    obtain ⟨rules, hrules, hall⟩ := mapM_ruleOf hrest
    have hc : ruleOf c = some { pats := [q], action := c.2, nestedPat := c.1 } := by
      rw [ruleOf, hq]
      rfl
    refine ⟨_ :: rules, ?_, .cons hc hall⟩
    rw [List.mapM_cons, hc, hrules]
    rfl

theorem map_pats_of_rules : ∀ {alts : List (NestedPat × β)} {rules : List (Rule β)},
    List.Forall₂ (fun c r => ruleOf c = some r) alts rules →
      rules.map Rule.pats = (alts.map Prod.fst).filterMap fun p => (Pat.fromNestedPat p).map fun q => [q]
  | _, _, .nil => rfl
  | _, _, .cons hc h => by
    obtain ⟨q, hq, rfl⟩ := exists_of_ruleOf hc
    rw [List.map_cons, List.map_cons, List.filterMap_cons, hq, map_pats_of_rules h]
    rfl

theorem firstMatch_of_rules {ρ : Type} (run : β → (Var → Option Value) → ρ) (μ : ℕ → Value) (v : Value)
    {alts : List (NestedPat × β)} {rules : List (Rule β)}
    (h : List.Forall₂ (fun c r => ruleOf c = some r) alts rules) :
    firstMatch run μ v rules
      = alts.findSome? fun c => (c.1.bind μ v).map fun b => run c.2 fun x => List.lookup x b := by
  induction h with
  | nil => rfl
  | cons hc _ ih =>
    obtain ⟨q, hq, rfl⟩ := exists_of_ruleOf hc
    rw [firstMatch] at ih
    rw [firstMatch, List.findSome?_cons, List.findSome?_cons, ih]

/-- What the first row that matches gives. -/
def firstRow {ρ : Type} (run : β → (Var → Option Value) → ρ) (μ : ℕ → Value) (v : Value)
    (cases : List (NestedPat × (ℕ → β))) : Option ρ :=
  cases.findSome? fun c =>
    (c.1.bind μ v).map fun b => run (c.2 c.1.flatten.length) fun x => List.lookup x b

/-- The first alternative that matches is one of the first row that matches. -/
theorem findSome?_alternatives {ρ : Type} (run : β → (Var → Option Value) → ρ) (μ : ℕ → Value) (v : Value)
    (cases : List (NestedPat × (ℕ → β))) :
    ((alternatives cases).findSome? fun c => (c.1.bind μ v).map fun b => run c.2 fun x => List.lookup x b)
      = firstRow run μ v cases := by
  rw [alternatives, NestedPat.findSome?_flatMap, firstRow]
  refine NestedPat.findSome?_congr fun c _ => ?_
  rw [List.findSome?_map, NestedPat.bind_flatten c.1 v, List.map_findSome?]
  rfl

theorem ready_of_rules {alts : List (NestedPat × β)} {rules : List (Rule β)} (htest : test.id < n)
    (hplain : ∀ c ∈ alts, c.1.Plain D seqIndex T)
    (h : List.Forall₂ (fun c r => ruleOf c = some r) alts rules)
    (hlast : ∃ c ∈ alts, Pat.fromNestedPat c.1 = some .wild) :
    Ready D seqIndex test [T] [(test, T.loopTy)] rules [] (fun _ _ => False) n := by
  have hrule : ∀ r ∈ rules, ∃ q, r.pats = [q] ∧ Pat.fromNestedPat r.nestedPat = some q ∧
      q.HasTy D seqIndex T := by
    intro r hr
    obtain ⟨c, hc, hcr⟩ := Fold.exists_of_mem_right h hr
    obtain ⟨q, hq, rfl⟩ := exists_of_ruleOf hcr
    obtain ⟨-, q', hq', hT⟩ := hplain c hc
    exact ⟨q, rfl, hq, Option.some.inj (hq'.symm.trans hq) ▸ hT⟩
  refine ⟨.cons rfl .nil, List.nodup_singleton _, ?_, List.nodup_nil, fun _ _ => List.not_mem_nil, nofun,
    nofun, htest, fun r hr => ?_, fun r hr => ?_, ?_⟩
  · exact fun x hx => List.mem_singleton.mp hx ▸ htest
  · obtain ⟨q, hpats, -, hT⟩ := hrule r hr
    rw [hpats]
    exact ⟨hT, trivial⟩
  · obtain ⟨q, hpats, hq, -⟩ := hrule r hr
    rw [hpats]
    exact Explains.of_todo hq
  · obtain ⟨c, hc, hwild⟩ := hlast
    obtain ⟨r, hr, hcr⟩ := Fold.exists_of_mem_left h hc
    obtain ⟨q, hq, rfl⟩ := exists_of_ruleOf hcr
    refine ⟨_, hr, ?_⟩
    obtain rfl := Option.some.inj (hq.symm.trans hwild)
    rfl

theorem fits_of_value {μ : ℕ → Value} {Λ : ℕ → Ty} {v : Value} {σ : Env} (hv : v.HasTy D seqIndex Λ T)
    (hσ : σ test = some v) :
    Fits D seqIndex μ Λ test v [T] [(test, T.loopTy)] [] (fun _ _ => False) σ :=
  ⟨hσ, .cons ⟨v, hσ, hv⟩ .nil, ⟨nofun, nofun⟩⟩

/-! ## The compiler -/

/-- **First-match semantics**: for typed rows, the last of which matches everything, the compiler returns an
expression that runs the first row that matches, with its variables bound to the parts of the value, if
and only if no tests lead to a column with a string constant and a vector pattern. -/
theorem matchCompile_correct_iff (cases : List (NestedPat × (ℕ → β))) (htest : test.id < n)
    (hty : ∀ c ∈ cases, c.1.HasTy D seqIndex T)
    (hlast : ∃ c ∈ cases.getLast?, Pat.fromNestedPat c.1 = some .wild) :
    (∃ e n', matchCompile D seqIndex caseType test T.loopTy cases n = some (e, n') ∧
      ∀ {ρ : Type} (run : β → (Var → Option Value) → ρ) {μ : ℕ → Value} {Λ : ℕ → Ty} {v : Value} {σ : Env},
        Typed D seqIndex μ Λ → v.HasTy D seqIndex Λ T → σ test = some v →
        e.eval seqIndex μ (runAction run) σ = firstRow run μ v cases)
      ↔ ¬ Mixes D (rowsOf cases) := by
  have hplain : ∀ c ∈ alternatives cases, c.1.Plain D seqIndex T := by
    intro c hc
    obtain ⟨a, ha, hc⟩ := List.mem_flatMap.mp hc
    obtain ⟨p, hp, rfl⟩ := List.mem_map.mp hc
    exact NestedPat.plain_of_mem_flatten (hty a ha) p hp
  have hwild : ∃ c ∈ alternatives cases, Pat.fromNestedPat c.1 = some .wild := by
    obtain ⟨a, ha, hq⟩ := hlast
    refine ⟨_, List.mem_flatMap.mpr ⟨a, List.mem_of_getLast? ha, List.mem_map_of_mem ?_⟩, hq⟩
    rw [NestedPat.flatten_of_wild hq]
    exact List.mem_singleton_self _
  obtain ⟨rules, hrules, hall⟩ := mapM_ruleOf hplain
  have hrows : rules.map Rule.pats = rowsOf cases := by
    rw [map_pats_of_rules hall, alternatives_map_fst, rowsOf]
  have hready := ready_of_rules htest hplain hall hwild
  have hmeets : Meets (matchRules D seqIndex caseType test _ [(test, T.loopTy)] rules []) n
      (¬ Mixes D (rules.map Rule.pats)) _ := matchRules_meets _ hready (Nat.lt_succ_self _)
  have heq : matchCompile D seqIndex caseType test T.loopTy cases n
      = matchRules D seqIndex caseType test (size [(test, T.loopTy)] rules + 1) [(test, T.loopTy)] rules [] n := by
    have hdef : matchCompile D seqIndex caseType test T.loopTy cases
        = (liftM ((alternatives cases).mapM ruleOf : Option (List (Rule β))) : M (List (Rule β))) >>= fun rules =>
          matchRules D seqIndex caseType test (size [(test, T.loopTy)] rules + 1) [(test, T.loopTy)] rules [] := rfl
    rw [hdef, hrules]
    rfl
  rw [hrows] at hmeets
  constructor
  · rintro ⟨e, n', he, -⟩
    exact (hmeets.of_returns (heq.symm.trans he)).1
  · intro hmix
    obtain ⟨e, n', he, -, hcorrect⟩ := hmeets.returns hmix
    refine ⟨e, n', heq.trans he, fun run _ _ _ _ hμ hv hσ => ?_⟩
    rw [hcorrect run hμ (fits_of_value hv hσ), firstMatch_of_rules run _ _ hall, findSome?_alternatives]


/-! ### Rows of strings -/

/-- Booleans, references and exceptions. -/
def Datatypes.bool : Datatypes where
  conTycon c := if c = falsee ∨ c = truee then ⟨2⟩ else if c = reff then .reff else .exn
  tyconCons tycon := if tycon = ⟨2⟩ then [(falsee, false), (truee, false)]
    else if tycon = .reff then [(reff, true)] else []
  conArg c ts := if c = reff then ts.head? else none
  mem_tyconCons {c} h := by
    by_cases hbool : c = falsee ∨ c = truee
    · obtain rfl | rfl := hbool <;> decide
    · rw [if_neg hbool] at h ⊢
      by_cases href : c = reff
      · subst href
        decide
      · exact absurd (if_neg href) h
  conTycon_reff {c} := by
    constructor
    · intro h
      by_contra hc
      rw [if_neg hc] at h
      split at h <;> exact absurd h (by decide)
    · rintro rfl
      rfl
  conArg_reff _ := rfl

/-- A pattern of strings, `char vector`s. -/
def stringInfo : Info := ⟨.vector (.word 8), .heap⟩

/-- `"a" => 0 | _ => 1` -/
def stringRows : List (NestedPat × (ℕ → ℕ)) :=
  [(.const stringInfo (.wordVector 8 [97]) false false, fun _ => 0), (.wild stringInfo, fun _ => 1)]

/-- `"a" => 0 | #[x] => 1 | _ => 2` -/
def stringAndVectorRows : List (NestedPat × (ℕ → ℕ)) :=
  [(.const stringInfo (.wordVector 8 [97]) false false, fun _ => 0),
    (.vector stringInfo [.var ⟨.word 8, .heap⟩ ⟨7⟩], fun _ => 1), (.wild stringInfo, fun _ => 2)]

theorem stringRows_typed : ∀ c ∈ stringRows, c.1.HasTy .bool 64 (.vector (.word 8)) := by
  intro c hc
  obtain rfl | hc := List.mem_cons.mp hc
  · exact ⟨rfl, rfl, by decide⟩
  · obtain rfl := List.mem_singleton.mp hc
    rfl

theorem stringAndVectorRows_typed : ∀ c ∈ stringAndVectorRows, c.1.HasTy .bool 64 (.vector (.word 8)) := by
  intro c hc
  obtain rfl | hc := List.mem_cons.mp hc
  · exact ⟨rfl, rfl, by decide⟩
  obtain rfl | hc := List.mem_cons.mp hc
  · exact ⟨rfl, .word 8, rfl, by decide, rfl, trivial⟩
  · obtain rfl := List.mem_singleton.mp hc
    rfl

theorem matchCompile_correct_iff_strings :
    (∃ e n', matchCompile .bool 64 (.word 8) ⟨0⟩ (Ty.loopTy (.vector (.word 8))) stringRows 1 = some (e, n') ∧
      ∀ {ρ : Type} (run : ℕ → (Var → Option Value) → ρ) {μ : ℕ → Value} {Λ : ℕ → Ty} {v : Value} {σ : Env},
        Typed .bool 64 μ Λ → v.HasTy .bool 64 Λ (.vector (.word 8)) → σ ⟨0⟩ = some v →
        e.eval 64 μ (runAction run) σ = firstRow run μ v stringRows)
      ↔ ¬ Mixes .bool (rowsOf stringRows) :=
  matchCompile_correct_iff stringRows Nat.zero_lt_one stringRows_typed ⟨_, rfl, rfl⟩

/-- A string constant before a vector pattern: the compiler finds a vector where it expects a constant. -/
theorem matchCompile_raises_strings_and_vectors :
    (∀ c ∈ stringAndVectorRows, c.1.HasTy .bool 64 (.vector (.word 8))) ∧
      (∃ c ∈ stringAndVectorRows.getLast?, Pat.fromNestedPat c.1 = some .wild) ∧
      matchCompile .bool 64 (.word 8) ⟨0⟩ (Ty.loopTy (.vector (.word 8))) stringAndVectorRows 1 = none :=
  ⟨stringAndVectorRows_typed, ⟨_, rfl, rfl⟩, rfl⟩

end MLton.MatchCompile
