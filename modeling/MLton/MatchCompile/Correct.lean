import MLton.MatchCompile.Constructors

/-!
# MatchCompile/Correct — the compiler against first-match semantics

Columns of records and of vectors, as those of constants and constructors; `matchRules_meets` is the
induction over the calls.
-/

namespace MLton.MatchCompile

variable {β : Type} {D : Datatypes} {seqIndex : ℕ} {test : Var} {recur : Rec β} {bound : ℕ} {caseType : Ty}
  {T : Ty} {Ts Ss : List Ty} {var : Var × Ty} {vars news : List (Var × Ty)} {rules : List (Rule β)}
  {facts : Facts} {known : Var → Const → Prop} {n n' : ℕ} {asks : Pat → Bool}

/-! ## Columns of records -/

theorem Pat.hasTy_record {fs fs' : List Field} {ps : List Pat} {ts : List Ty}
    (h : (record fs' ps).HasTy D seqIndex (.record fs ts)) :
    fs' = fs ∧ fs.length = ts.length ∧ ps.length = ts.length ∧ HaveTys D seqIndex ps ts := by
  obtain ⟨ts', hT, hlen, hps⟩ := h
  obtain ⟨rfl, rfl⟩ := Ty.record.inj hT
  exact ⟨rfl, hlen.trans hps.length, hps.length, hps⟩

/-- The fields of a record. -/
def RecordParts (k : ℕ) (_ : ℕ → Value) (w : Value) (vs : List Value) : Prop := w.fields k = some vs

/-- A value of a record type has fields of the types of the record. -/
theorem Value.HasTy.fields {Λ : ℕ → Ty} {fs : List Field} {ts : List Ty} (hlen : fs.length = ts.length)
    {w : Value} (h : w.HasTy D seqIndex Λ (.record fs ts)) :
    ∃ vs, w.fields ts.length = some vs ∧ List.Forall₂ (fun v T => v.HasTy D seqIndex Λ T) vs ts := by
  cases h with
  | field hw => exact ⟨[w], if_pos rfl, .cons hw .nil⟩
  | @record _ _ vs hne hvs =>
    have hvs := hvs.forall₂
    refine ⟨vs, ?_, hvs⟩
    rw [Value.fields, if_neg hne]
    exact if_pos hvs.length_eq

/-- The rows of a column of records have the fields in front. -/
theorem record_branch {fs : List Field} {ts : List Ty} (hrec : RecSpec D seqIndex test recur bound)
    (hready : Ready D seqIndex test (.record fs ts :: Ts) (var :: vars) rules facts known n)
    (hbound : size (var :: vars) rules ≤ bound) (hcol : Column .record (rules.map Rule.pats)) (hn : n ≤ n')
    (hcols : Columns n n' news ts) :
    Meets (recur (news ++ vars) (rules.map (Rule.expand (Pat.parts ts.length)))
        ((var.1, .record fs (news.map Prod.fst)) :: facts)) n'
      (¬ Mixes D (spread ts.length (rules.map Rule.pats)))
      (Gives D seqIndex test (.record fs ts) Ts var vars rules facts known (fun _ _ => True)
        (With (news.map Prod.fst) (RecordParts ts.length))) := by
  have htyped : ∀ r ∈ rules, r.head.HasTy D seqIndex (.record fs ts) :=
    fun r hr => (Rule.pats_eq (hready.typed r hr)).2.1
  have hkeep : keepRules (fun _ => true) rules = rules :=
    List.filter_eq_self.mpr fun r _ => Bool.or_true _
  have hkeep' : keep (fun _ => true) (rules.map Rule.pats) = rules.map Rule.pats :=
    List.filter_eq_self.mpr fun r _ => Bool.or_true _
  have hexists : ∀ r ∈ rules, r.head.isWild = false → ∃ fs' ps, r.head = .record fs' ps := by
    intro r hr hw
    exact Pat.exists_record ((hcol.rule hr).resolve_left (by rw [hw]; exact nofun))
  obtain ⟨r₀, hr₀, hk₀⟩ := hcol.exists_rule
  have hnews : (news.map Prod.fst).length = ts.length := by
    rw [List.length_map, hcols.types.length_eq]
  have hbranch : Branch D seqIndex var rules facts
      ((var.1, .record fs (news.map Prod.fst)) :: facts) known known n n' news ts (fun _ => true)
      (Pat.parts ts.length) := by
    refine Branch.parts hready hn hcols (fun y hy => ?_) (fun r hr _ hw => ?_) ?_
    · obtain ⟨x, hx, rfl⟩ := List.mem_map.mp hy
      exact (hcols.fresh x hx).2
    · obtain ⟨fs', ps, hp⟩ := hexists r hr hw
      have hT := htyped r hr
      rw [hp] at hT ⊢
      obtain ⟨-, -, hlen, hps⟩ := Pat.hasTy_record hT
      refine ⟨hps, ?_, fun p hp' => .of_record (List.lookup_cons_self) (hnews.trans hlen.symm) hp'⟩
      rw [Pat.parts, Pat.weight, hlen]
      omega
    · exact ⟨r₀, hr₀, rfl, Pat.not_isWild_of_kind hk₀⟩
  have hfs : fs.length = ts.length := by
    obtain ⟨fs', ps, hp⟩ := Pat.exists_record hk₀
    exact (Pat.hasTy_record (hp ▸ htyped r₀ hr₀)).2.1
  have hext : Extends D seqIndex test (.record fs ts) Ts var vars facts
      ((var.1, .record fs (news.map Prod.fst)) :: facts) known known n news ts (fun _ _ => True)
      (With (news.map Prod.fst) (RecordParts ts.length)) := by
    refine Extends.parts hcols (hready.below _ List.mem_cons_self) ?_ ?_
    · rintro μ Λ w vs - hw - hvs
      obtain ⟨vs', hvs', hT⟩ := hw.fields hfs
      rwa [Option.some.inj (hvs.symm.trans hvs')]
    · intro μ w vs σ hw hvs hall
      exact ⟨w, vs, hw, by rw [hnews]; exact hvs, hall⟩
  have hmeets := hbranch.meets hrec hready hbound hext fun r hr _ _ _ _ => .inr rfl
  rwa [map_pats_parts, nextRules, hkeep, hkeep'] at hmeets

theorem mapM_expandM {f : Pat → Option (List Pat)} {g : Pat → List Pat} : ∀ {rules : List (Rule β)},
    (∀ r ∈ rules, f r.head = some (g r.head)) →
      rules.mapM (expandM f) = some (rules.map (Rule.expand g))
  | [], _ => rfl
  | r :: rules, h => by
    obtain ⟨hr, hrules⟩ := List.forall_mem_cons.mp h
    rw [List.mapM_cons, expandM, hr, mapM_expandM hrules]
    rfl

/-- The types of the fields, as the compiler sees them. -/
theorem Ty.loopTy_record (fs : List Field) (ts : List Ty) : Ty.loopTy (.record fs ts) = Ty.tuple (ts.map Ty.loopTy) := by
  rw [Ty.loopTy, Ty.loopTys_eq_map]

theorem Ty.deTuple_tuple : ∀ {ts : List Ty}, ts.length ≠ 1 → (Ty.tuple ts).deTuple = ts
  | [], _ => rfl
  | [_], h => absurd rfl h
  | _ :: _ :: _, _ => rfl

/-- **A column of records.** -/
theorem record_meets {fs : List Field} {ts : List Ty} (hrec : RecSpec D seqIndex test recur bound)
    (hready : Ready D seqIndex test (.record fs ts :: Ts) (var :: vars) rules facts known n)
    (hbound : size (var :: vars) rules ≤ bound) (hund : Undecided (rules.map Rule.pats))
    (hcol : Column .record (rules.map Rule.pats)) :
    Meets (record recur var vars rules facts fs) n (¬ Mixes D (rules.map Rule.pats))
      (Correct D seqIndex test (.record fs ts :: Ts) (var :: vars) rules facts known) := by
  have htyped : ∀ r ∈ rules, r.head.HasTy D seqIndex (.record fs ts) :=
    fun r hr => (Rule.pats_eq (hready.typed r hr)).2.1
  obtain ⟨hvar, -⟩ := List.forall₂_cons.mp hready.types
  rw [Ty.loopTy_record] at hvar
  obtain ⟨r₀, hr₀, hk₀⟩ := hcol.exists_rule
  have hfs : fs.length = ts.length := by
    obtain ⟨fs', ps, hp⟩ := Pat.exists_record hk₀
    exact (Pat.hasTy_record (hp ▸ htyped r₀ hr₀)).2.1
  have hrows : rules.mapM (expandM (derecord ts.length)) = some (rules.map (Rule.expand (Pat.parts ts.length))) := by
    refine mapM_expandM fun r hr => ?_
    obtain hw | hk := hcol.rule hr
    · rw [Pat.isWild_iff.mp hw]
      rfl
    · obtain ⟨fs', ps, hp⟩ := Pat.exists_record hk
      rw [hp]
      rfl
  have hmixes : ¬ Mixes D (spread ts.length (rules.map Rule.pats)) ↔ ¬ Mixes D (rules.map Rule.pats) := by
    rw [hcol.not_mixes_iff hund]
    constructor
    · intro hno rows' ht
      obtain ⟨fs', hasked, rfl⟩ := hcol.tests_record.mp ht
      obtain ⟨r, hr, hp⟩ := asked_map.mp hasked
      obtain ⟨ps, hp⟩ := Pat.isRecord_iff.mp hp
      have hT := htyped r hr
      rw [hp] at hT
      rwa [(Pat.hasTy_record hT).1, hfs]
    · intro hall
      obtain ⟨fs', ps, hp⟩ := Pat.exists_record hk₀
      have hasked : Asked (Pat.isRecord fs') (rules.map Rule.pats) :=
        asked_map.mpr ⟨r₀, hr₀, Pat.isRecord_iff.mpr ⟨ps, hp⟩⟩
      have hno := hall _ (hcol.tests_record.mpr ⟨fs', hasked, rfl⟩)
      have hT := htyped r₀ hr₀
      rw [hp] at hT
      rwa [(Pat.hasTy_record hT).1, hfs] at hno
  have hbody : ∀ xs n', n ≤ n' → Columns n n' xs ts → Meets (do
      let rules ← (rules.mapM (expandM (derecord xs.length)) : Option (List (Rule β)))
      recur (xs ++ vars) rules ((var.1, .record fs (xs.map Prod.fst)) :: facts)) n'
      (¬ Mixes D (rules.map Rule.pats))
      (Gives D seqIndex test (.record fs ts) Ts var vars rules facts known (fun _ _ => True)
        (With (xs.map Prod.fst) (RecordParts ts.length))) := by
    intro xs n' hn' hcols
    rw [hcols.types.length_eq, hrows]
    exact (Meets.lift_some_bind (record_branch hrec hready hbound hcol hn' hcols)).congr hmixes
  unfold record
  dsimp only
  split
  next hone =>
    obtain ⟨t, rfl⟩ := List.length_eq_one_iff.mp (hfs.symm.trans hone)
    have htys : [var.2] = [t].map Ty.loopTy := by rw [hvar]; rfl
    rw [htys]
    refine Meets.newNonames fun xs n' hn' hcols => ?_
    refine (hbody xs n' hn' hcols).map fun e he ρ run μ Λ v₀ σ hμ hσ => ?_
    obtain ⟨⟨w, hw, -⟩, -⟩ := List.forall₂_cons.mp hσ.vars
    obtain ⟨x, _, -, hxs, rfl⟩ := List.forall₂_cons_right_iff.mp hcols.types
    obtain rfl := List.forall₂_nil_right_iff.mp hxs
    have hvalue : (Exp.var var.1 var.2 .undetermined : Exp (Action β)).value seqIndex μ σ = some w := hw
    rw [List.foldr_cons, List.foldr_nil, Exp.eval, hvalue, Option.bind_some]
    exact he run hμ hσ hw trivial ⟨[w], if_pos rfl, rfl⟩
  next hone =>
    have htys : var.2.deTuple = ts.map Ty.loopTy := by
      rw [hvar, Ty.deTuple_tuple (by rwa [List.length_map, ← hfs])]
    rw [htys]
    refine Meets.newNonames fun xs n' hn' hcols => ?_
    refine (hbody xs n' hn' hcols).map fun e he ρ run μ Λ v₀ σ hμ hσ => ?_
    obtain ⟨⟨w, hw, hwT⟩, -⟩ := List.forall₂_cons.mp hσ.vars
    obtain ⟨vs, hvs, -⟩ := hwT.fields hfs
    have hvalue : (Exp.var var.1 var.2 .undetermined : Exp (Action β)).value seqIndex μ σ = some w := hw
    have hlen : (xs.map Prod.fst).length = ts.length := by rw [List.length_map, hcols.types.length_eq]
    rw [Exp.eval, hvalue, Option.bind_some, hlen, hvs, Option.bind_some]
    exact he run hμ hσ hw trivial ⟨vs, hvs, rfl⟩

/-! ## Columns of vectors -/

theorem Pat.hasTy_vector {ps : List Pat} {t : Ty} (h : (vector ps).HasTy D seqIndex (.vector t)) :
    ps.length < 2 ^ seqIndex ∧ HaveTys D seqIndex ps (List.replicate ps.length t) := by
  obtain ⟨t', hT, hlen, hps⟩ := h
  obtain rfl := Ty.vector.inj hT
  exact ⟨hlen, haveTys_of_haveTy hps⟩

/-- The elements of a vector. -/
def VectorParts (k : ℕ) (_ : ℕ → Value) (w : Value) (vs : List Value) : Prop :=
  w = .vector vs ∧ vs.length = k

theorem forall₂_replicate {α γ : Type} {R : α → γ → Prop} {y : γ} : ∀ {xs : List α}, (∀ x ∈ xs, R x y) →
    List.Forall₂ R xs (List.replicate xs.length y)
  | [], _ => .nil
  | _ :: _, h => .cons (h _ List.mem_cons_self) (forall₂_replicate fun x hx => h x (List.mem_cons_of_mem _ hx))

/-- The case of a length. -/
theorem vector_branch {t : Ty} {k : ℕ} (hrec : RecSpec D seqIndex test recur bound)
    (hready : Ready D seqIndex test (.vector t :: Ts) (var :: vars) rules facts known n)
    (hbound : size (var :: vars) rules ≤ bound) (hcol : Column .vector (rules.map Rule.pats))
    (hk : ∃ r ∈ rules, r.head.isLen k = true) (hn : n ≤ n') (hcols : Columns n n' news (List.replicate k t)) :
    Meets (recur (news ++ vars) (nextRules (Pat.isLen k) (Pat.parts k) rules)
        ((var.1, .vector (news.map Prod.fst)) :: facts)) n'
      (¬ Mixes D (spread k (keep (Pat.isLen k) (rules.map Rule.pats))))
      (Gives D seqIndex test (.vector t) Ts var vars rules facts known
        (fun _ w => ∃ vs, w = .vector vs ∧ vs.length = k) (With (news.map Prod.fst) (VectorParts k))) := by
  have htyped : ∀ r ∈ rules, r.head.HasTy D seqIndex (.vector t) :=
    fun r hr => (Rule.pats_eq (hready.typed r hr)).2.1
  have hlen : (List.replicate k t).length = k := List.length_replicate
  have hnews : (news.map Prod.fst).length = k := by
    rw [List.length_map, hcols.types.length_eq, hlen]
  obtain ⟨r₀, hr₀, hlen₀⟩ := hk
  have hbranch : Branch D seqIndex var rules facts
      ((var.1, .vector (news.map Prod.fst)) :: facts) known known n n' news (List.replicate k t) (Pat.isLen k)
      (Pat.parts (List.replicate k t).length) := by
    refine Branch.parts hready hn hcols (fun y hy => ?_) (fun r hr ha _ => ?_)
      ⟨r₀, hr₀, hlen₀, Pat.not_isWild_of_kind (Pat.kind_of_isLen hlen₀)⟩
    · obtain ⟨x, hx, rfl⟩ := List.mem_map.mp hy
      exact (hcols.fresh x hx).2
    · obtain ⟨ps, hp, hps⟩ := Pat.isLen_iff.mp ha
      have hT := htyped r hr
      rw [hp] at hT ⊢
      obtain ⟨-, hT⟩ := Pat.hasTy_vector hT
      refine ⟨hps ▸ hT, ?_, fun p hp' => .of_vector List.lookup_cons_self (hnews.trans hps.symm) hp'⟩
      rw [Pat.parts, Pat.weight, hps, hlen]
      omega
  rw [hlen] at hbranch
  rw [← map_pats_parts]
  refine hbranch.meets hrec hready hbound
    (Extends.parts hcols (hready.below _ List.mem_cons_self) ?_ ?_) fun r hr μ w hadm hrw => ?_
  · rintro μ Λ w vs - hw - ⟨rfl, hvs⟩
    cases hw with
    | vector _ hall => exact hvs ▸ forall₂_replicate hall
  · rintro μ w vs σ hw ⟨rfl, hvs⟩ hall
    exact ⟨vs, hw, hall⟩
  · refine (hcol.rule hr).imp_right fun hkind => ?_
    obtain ⟨ps, hp⟩ := Pat.exists_vector hkind
    rw [hp] at hrw ⊢
    obtain ⟨vs, rfl, hvs⟩ := hadm
    obtain ⟨vs', hvs', hlen'⟩ := hrw
    obtain rfl := Value.vector.inj hvs'
    exact decide_eq_true (hlen'.symm.trans hvs)

theorem vectorKey_iff (k : ℕ) (p : Pat) : Pat.isLen k p = true ↔ ∃ q, vectorKey p = some (k, q) := by
  cases p <;> simp [Pat.isLen, vectorKey]

/-- What is proved of the case of a length. -/
def VectorCase (D : Datatypes) (seqIndex : ℕ) (test : Var) (t : Ty) (Ts : List Ty) (var : Var × Ty)
    (vars : List (Var × Ty)) (rules : List (Rule β)) (facts : Facts) (known : Var → Const → Prop) (k : ℕ)
    (p : ℕ × Exp (Action β)) : Prop :=
  p.1 = k % 2 ^ seqIndex ∧ ∀ {ρ : Type} (run : β → (Var → Option Value) → ρ) {μ : ℕ → Value} {Λ : ℕ → Ty}
    {v₀ : Value} {σ : Env} {vs : List Value}, Typed D seqIndex μ Λ →
    Fits D seqIndex μ Λ test v₀ (.vector t :: Ts) (var :: vars) facts known σ →
    σ var.1 = some (.vector vs) → vs.length = k →
    p.2.eval seqIndex μ (runAction run) σ = firstMatch run μ v₀ rules

theorem map_expand_devector (rules : List (Rule β)) (k : ℕ) :
    (keepRules (Pat.isLen k) rules).map (Rule.expand (devector k))
      = nextRules (Pat.isLen k) (Pat.parts k) rules := by
  refine List.map_congr_left fun r hr => ?_
  have hparts : devector k r.head = r.head.parts k := by
    obtain hw | hp := (mem_keepRules.mp hr).2
    · rw [Pat.isWild_iff.mp hw]
      rfl
    · obtain ⟨ps, hp, -⟩ := Pat.isLen_iff.mp hp
      rw [hp]
      rfl
  rw [Rule.expand, Rule.expand, hparts]

/-- **A column of vectors.** -/
theorem vector_meets {t : Ty} (hrec : RecSpec D seqIndex test recur bound)
    (hready : Ready D seqIndex test (.vector t :: Ts) (var :: vars) rules facts known n)
    (hbound : size (var :: vars) rules ≤ bound) (hund : Undecided (rules.map Rule.pats))
    (hcol : Column .vector (rules.map Rule.pats)) :
    Meets (vector seqIndex caseType recur var vars rules facts) n (¬ Mixes D (rules.map Rule.pats))
      (Correct D seqIndex test (.vector t :: Ts) (var :: vars) rules facts known) := by
  have htyped : ∀ r ∈ rules, r.head.HasTy D seqIndex (.vector t) :=
    fun r hr => (Rule.pats_eq (hready.typed r hr)).2.1
  obtain ⟨hvar, -⟩ := List.forall₂_cons.mp hready.types
  have hkey : (splitRules vectorKey rules).isSome := by
    refine splitRules_isSome_iff.mpr fun r hr => (hcol.rule hr).imp_right fun hk => ?_
    obtain ⟨ps, hp⟩ := Pat.exists_vector hk
    rw [hp]
    rfl
  obtain ⟨⟨cases, defaults⟩, hsplit⟩ := Option.isSome_iff_exists.mp hkey
  obtain ⟨spec, rfl⟩ := splitRules_spec vectorKey_iff rfl hsplit
  have hasked : ∀ k, k ∈ cases.map Split.key ↔ Asked (Pat.isLen k) (rules.map Rule.pats) :=
    fun _ => (spec.asked_iff vectorKey_iff).symm
  have hshort : ∀ c ∈ cases, c.key < 2 ^ seqIndex := by
    intro c hc
    obtain ⟨r, hr, hlen⟩ := asked_map.mp ((hasked c.key).mp (List.mem_map_of_mem hc))
    obtain ⟨ps, hp, hps⟩ := Pat.isLen_iff.mp hlen
    have hT := htyped r hr
    rw [hp] at hT
    exact hps ▸ (Pat.hasTy_vector hT).1
  have hcase : ∀ c ∈ cases, ∀ n', n ≤ n' → Meets (do
      let xs ← newNonames (List.replicate c.key var.2.deVector)
      let e ← recur (xs ++ vars) (c.rules.map (Rule.expand (devector c.key)))
        ((var.1, .vector (xs.map Prod.fst)) :: facts)
      pure (c.key % 2 ^ seqIndex,
        Exp.devector (xs.map Prod.fst) (Exp.var var.1 var.2 .undetermined) e)) n'
      (¬ Mixes D (spread c.key (keep (Pat.isLen c.key) (rules.map Rule.pats))))
      (VectorCase D seqIndex test t Ts var vars rules facts known c.key) := by
    intro c hc n' hn'
    obtain ⟨r, hr, hrkey⟩ := spec.source c hc
    have htys : List.replicate c.key var.2.deVector = (List.replicate c.key t).map Ty.loopTy := by
      rw [hvar, List.map_replicate]
      rfl
    rw [spec.rules_eq c hc, map_expand_devector, htys]
    refine Meets.newNonames fun xs n₁ hn₁ hcols => ?_
    refine (vector_branch hrec hready hbound hcol ⟨r, hr, (vectorKey_iff _ _).mpr ⟨_, hrkey⟩⟩
      (hn'.trans hn₁) (hcols.mono hn')).map fun e he => ⟨rfl, fun {ρ} run {μ Λ v₀ σ vs} hμ hσ hw hvs => ?_⟩
    have hlen : (xs.map Prod.fst).length = vs.length := by
      rw [List.length_map, hcols.types.length_eq, List.length_replicate, hvs]
    have hvalue : (Exp.var var.1 var.2 .undetermined : Exp (Action β)).value seqIndex μ σ
        = some (.vector vs) := hw
    rw [Exp.eval, hvalue, Option.bind_some]
    dsimp only
    rw [if_pos hlen.le]
    exact he run hμ hσ hw ⟨vs, rfl, hvs⟩ ⟨vs, ⟨rfl, hvs⟩, rfl⟩
  unfold vector
  rw [hsplit]
  refine Meets.lift_some_bind ?_
  dsimp only
  refine Meets.congr (Meets.bind (default_meets hrec hready hbound le_rfl) fun default n₁ hn₁ hdefault =>
    Meets.map (Meets.mapM fun c hc n₂ hn₂ => hcase c hc n₂ (hn₁.trans hn₂)) fun es hes ρ run μ Λ v₀ σ hμ hσ => ?_) ?_
  · obtain ⟨⟨w, hw, hwT⟩, -⟩ := List.forall₂_cons.mp hσ.vars
    cases hwT with
    | @vector vs _ hvs _ =>
      have hvalue : (Exp.vectorLength (Exp.var var.1 var.2 .undetermined) : Exp (Action β)).value seqIndex μ σ
          = some (.word seqIndex vs.length) := by
        rw [Exp.value, Exp.value, hw, Option.bind_some]
        dsimp only
        rw [Nat.mod_eq_of_lt hvs]
      have hmatch : ∀ p ∈ es, ∀ c ∈ cases,
          VectorCase D seqIndex test t Ts var vars rules facts known c.key p → p.1 = c.key := by
        intro p _ c hc hp
        rw [hp.1, Nat.mod_eq_of_lt (hshort c hc)]
      rw [Exp.eval, hvalue, Option.bind_some]
      refine eval_ofWord (fun p hp hlen => ?_) (fun e he hno => ?_) (by rintro ⟨⟩)
      · obtain ⟨c, hc, hcase⟩ := Fold.exists_of_mem_right hes hp
        refine hcase.2 run hμ hσ hw ?_
        rw [← hmatch p hp c hc hcase]
        exact (Value.word.inj hlen).2
      · obtain rfl := Option.some.inj he
        refine hdefault run hμ hσ hw (fun r hr hadm => ?_) rfl
        refine (hcol.rule hr).resolve_right fun hk => ?_
        obtain ⟨ps, hp⟩ := Pat.exists_vector hk
        rw [hp] at hadm
        obtain ⟨vs', hvs', hlen⟩ := hadm
        obtain rfl := Value.vector.inj hvs'
        have hmem : vs.length ∈ cases.map Split.key :=
          (hasked _).mpr (asked_map.mpr ⟨r, hr, Pat.isLen_iff.mpr ⟨ps, hp, hlen.symm⟩⟩)
        obtain ⟨c, hc, hck⟩ := List.mem_map.mp hmem
        obtain ⟨p, hp, hcase⟩ := Fold.exists_of_mem_left hes hc
        exact hno p hp (by rw [hmatch p hp c hc hcase, hck])
  · rw [hcol.not_mixes_iff hund]
    constructor
    · rintro ⟨hdflt, hcases⟩ rows' ht
      obtain ⟨k, hk, rfl⟩ | rfl := hcol.tests_vector.mp ht
      · obtain ⟨c, hc, rfl⟩ := List.mem_map.mp ((hasked k).mpr hk)
        exact hcases c hc
      · exact hdflt
    · intro hall
      refine ⟨hall _ (hcol.tests_vector.mpr (.inr rfl)), fun c hc => ?_⟩
      exact hall _ (hcol.tests_vector.mpr (.inl ⟨c.key, (hasked _).mp (List.mem_map_of_mem hc), rfl⟩))

/-! ## Columns with a string constant and a vector pattern -/

/-- A typed column is of one kind, or its rows clash. -/
theorem column_or_clash (hready : Ready D seqIndex test (T :: Ts) (var :: vars) rules facts known n)
    (hund : Undecided (rules.map Rule.pats)) {r : Rule β} (hr : r ∈ rules) {k : Kind}
    (hk : r.head.kind = some k) :
    Column k (rules.map Rule.pats) ∨ Clash (rules.map Rule.pats) ∧
      ∃ r' ∈ rules, (k = .const ∧ r'.head.kind = some .vector) ∨ (k = .vector ∧ r'.head.kind = some .const) := by
  by_cases hall : ∀ r' ∈ rules, r'.head.isWild = true ∨ r'.head.kind = some k
  · refine .inl ⟨fun row hrow => ?_, r.pats, List.mem_map_of_mem hr, hk⟩
    obtain ⟨r', hr', rfl⟩ := List.mem_map.mp hrow
    exact hall r' hr'
  · have hconst : ∀ {r : Rule β}, r ∈ rules → r.head.kind = some .const →
        ∃ c, Asked (Pat.isConst c) (rules.map Rule.pats) := by
      intro r hr hk
      obtain ⟨c, isChar, isInt, hp⟩ := Pat.exists_const hk
      exact ⟨c, asked_map.mpr ⟨r, hr, Pat.isConst_iff.mpr ⟨isChar, isInt, hp⟩⟩⟩
    have hvector : ∀ {r : Rule β}, r ∈ rules → r.head.kind = some .vector →
        ∃ k, Asked (Pat.isLen k) (rules.map Rule.pats) := by
      intro r hr hk
      obtain ⟨ps, hp⟩ := Pat.exists_vector hk
      exact ⟨ps.length, asked_map.mpr ⟨r, hr, Pat.isLen_iff.mpr ⟨ps, hp, rfl⟩⟩⟩
    push Not at hall
    obtain ⟨r', hr', hw, hne⟩ := hall
    obtain ⟨l, hl⟩ : ∃ l, r'.head.kind = some l :=
      Option.ne_none_iff_exists'.mp fun hnone => hw (Pat.kind_eq_none.mp hnone)
    have htyped : ∀ r ∈ rules, r.head.HasTy D seqIndex T :=
      fun r hr => (Rule.pats_eq (hready.typed r hr)).2.1
    obtain rfl | ⟨rfl, rfl⟩ | ⟨rfl, rfl⟩ := Pat.eq_of_allowed (Pat.allowed_of_hasTy (htyped r hr) hk)
      (Pat.allowed_of_hasTy (htyped r' hr') hl)
    · exact absurd hl hne
    · exact .inr ⟨⟨hund, hconst hr hk, hvector hr' hl⟩, r', hr', .inl ⟨rfl, hl⟩⟩
    · exact .inr ⟨⟨hund, hconst hr' hl, hvector hr hk⟩, r', hr', .inr ⟨rfl, hl⟩⟩

/-- The compiler raises when a pattern of the column has no key. -/
theorem splitRules_eq_none {κ π : Type} [DecidableEq κ] {key : Pat → Option (κ × π)} {r : Rule β}
    (hr : r ∈ rules) (hw : r.head.isWild = false) (hkey : key r.head = none) : splitRules key rules = none := by
  refine Option.not_isSome_iff_eq_none.mp fun hsome => ?_
  obtain h | h := splitRules_isSome_iff.mp hsome r hr
  · rw [hw] at h
    exact absurd h nofun
  · rw [hkey] at h
    exact absurd h nofun

/-! ## The calls -/

/-- A row that asks for nothing is the result. -/
theorem allWild_meets {first : Rule β} (hready : Ready D seqIndex test Ts vars (first :: rules) facts known n)
    (hfirst : first.allWild = true) :
    Meets (do
        let env ← facts.bind test first.nestedPat
        pure (.action (first.action, fun x => List.lookup x env))) n
      (¬ Mixes D ((first :: rules).map Rule.pats))
      (Correct D seqIndex test Ts vars (first :: rules) facts known) := by
  have hdecided : ¬ Undecided ((first :: rules).map Rule.pats) := by
    rintro ⟨row, hrow, hno⟩
    obtain rfl := Option.some.inj hrow
    exact absurd (hfirst.symm.trans hno) nofun
  have hwild : ∀ a ∈ first.pats.zip (vars.map Prod.fst), a.1.isWild = true := fun a ha =>
    List.all_eq_true.mp hfirst _ (List.of_mem_zip ha).1
  obtain ⟨env, henv, hall⟩ := (hready.explains first List.mem_cons_self).bindLoop hwild
  have hbind : facts.bind test first.nestedPat = some env := by
    rw [Facts.bind, if_pos hready.facts_nodup, henv, List.append_nil]
  rw [hbind]
  refine Meets.lift_some_bind ((Meets.pure ?_).congr (iff_of_true trivial (not_mixes_of_decided hdecided)))
  intro ρ run μ Λ v₀ σ hμ hσ
  obtain ⟨b, hb, hnames⟩ := hall hσ.respects hσ.test
  rw [Exp.eval, firstMatch, List.findSome?_cons, hb]
  exact congrArg (fun f => some (run first.action f)) (funext fun x => hnames.lookup x)

/-- A column that asks for something, by what the first such pattern asks for. -/
theorem asks_meets (hrec : RecSpec D seqIndex test recur bound)
    (hready : Ready D seqIndex test (T :: Ts) (var :: vars) rules facts known n)
    (hbound : size (var :: vars) rules ≤ bound) (hund : Undecided (rules.map Rule.pats)) {r : Rule β}
    (hr : r ∈ rules) (hw : r.head.isWild = false) :
    Meets (match r.head with
        | .const _ _ _ => const caseType recur var vars rules facts
        | .con c _ => sum D caseType recur var vars rules facts (D.conTycon c)
        | .conApp c _ _ _ => sum D caseType recur var vars rules facts (D.conTycon c)
        | .record fs _ => record recur var vars rules facts fs
        | .vector _ => vector seqIndex caseType recur var vars rules facts
        | .wild => failure) n
      (¬ Mixes D (rules.map Rule.pats))
      (Correct D seqIndex test (T :: Ts) (var :: vars) rules facts known) := by
  have hT := (Rule.pats_eq (hready.typed r hr)).2.1
  have hcases := fun {k : Kind} => column_or_clash hready hund hr (k := k)
  have hmixes : Clash (rules.map Rule.pats) → ¬ ¬ Mixes D (rules.map Rule.pats) :=
    fun h hno => hno (mixes_iff.mpr (.inl h))
  cases hp : r.head with
  | const c isChar isInt =>
    obtain hcol | ⟨hclash, r', hr', ⟨-, hk⟩ | ⟨h, -⟩⟩ := hcases (k := .const) (by rw [hp]; rfl)
    · exact const_meets hrec hready hbound hund hcol
    · obtain ⟨ps, hps⟩ := Pat.exists_vector hk
      dsimp only
      unfold const
      rw [splitRules_eq_none hr' (Pat.not_isWild_of_kind hk) (by rw [hps]; rfl)]
      exact Meets.lift_none_bind (hmixes hclash)
    · exact absurd h nofun
  | con c targs =>
    obtain hcol | ⟨-, -, -, ⟨h, -⟩ | ⟨h, -⟩⟩ := hcases (k := .con) (by rw [hp]; rfl)
    · rw [hp] at hT
      obtain ⟨-, ts, -, rfl, -⟩ := hT
      exact sum_meets hrec hready hbound hund hcol
    · exact absurd h nofun
    · exact absurd h nofun
  | conApp c targs q ty =>
    obtain hcol | ⟨-, -, -, ⟨h, -⟩ | ⟨h, -⟩⟩ := hcases (k := .con) (by rw [hp]; rfl)
    · rw [hp] at hT
      obtain ⟨ts, -, -, rfl, -⟩ := hT
      exact sum_meets hrec hready hbound hund hcol
    · exact absurd h nofun
    · exact absurd h nofun
  | record fs ps =>
    obtain hcol | ⟨-, -, -, ⟨h, -⟩ | ⟨h, -⟩⟩ := hcases (k := .record) (by rw [hp]; rfl)
    · rw [hp] at hT
      obtain ⟨ts, rfl, -⟩ := hT
      exact record_meets hrec hready hbound hund hcol
    · exact absurd h nofun
    · exact absurd h nofun
  | vector ps =>
    obtain hcol | ⟨hclash, r', hr', ⟨h, -⟩ | ⟨-, hk⟩⟩ := hcases (k := .vector) (by rw [hp]; rfl)
    · rw [hp] at hT
      obtain ⟨t, rfl, -⟩ := hT
      exact vector_meets hrec hready hbound hund hcol
    · exact absurd h nofun
    · obtain ⟨c, isChar, isInt, hc⟩ := Pat.exists_const hk
      dsimp only
      unfold vector
      rw [splitRules_eq_none hr' (Pat.not_isWild_of_kind hk) (by rw [hc]; rfl)]
      exact Meets.lift_none_bind (hmixes hclash)
  | wild =>
    rw [hp] at hw
    exact absurd hw nofun

/-- **One call**, given the calls below it. -/
theorem matchStep_meets (hrec : RecSpec D seqIndex test recur bound)
    (hready : Ready D seqIndex test Ts vars rules facts known n) (hbound : size vars rules ≤ bound) :
    Meets (matchStep D seqIndex caseType test recur vars rules facts) n (¬ Mixes D (rules.map Rule.pats))
      (Correct D seqIndex test Ts vars rules facts known) := by
  cases rules with
  | nil =>
    obtain ⟨r, hr, -⟩ := hready.fallback
    exact absurd hr List.not_mem_nil
  | cons first rules =>
    by_cases hfirst : first.allWild = true
    · unfold matchStep
      dsimp only
      rw [if_pos hfirst]
      exact allWild_meets hready hfirst
    · have hund : Undecided ((first :: rules).map Rule.pats) :=
        ⟨first.pats, rfl, Bool.eq_false_iff.mpr hfirst⟩
      unfold matchStep
      dsimp only
      rw [if_neg hfirst]
      cases hready.types with
      | nil =>
        refine absurd ?_ hfirst
        have hpats := (hready.typed first List.mem_cons_self).length
        rw [Rule.allWild, List.length_eq_zero_iff.mp hpats]
        rfl
      | cons hvar hvars =>
        dsimp only
        cases hfind : (first :: rules).find? fun r => !r.head.isWild with
        | none =>
          refine none_meets hrec hready hbound hund fun r hr => ?_
          simpa using List.find?_eq_none.mp hfind r hr
        | some r =>
          refine asks_meets hrec hready hbound hund (List.mem_of_find?_eq_some hfind) ?_
          simpa using List.find?_some hfind

/-- **Every call** returns exactly when its rows do not mix, and is correct. -/
theorem matchRules_meets : ∀ fuel,
    RecSpec D seqIndex test (matchRules D seqIndex caseType test fuel : Rec β) fuel := by
  intro fuel
  induction fuel with
  | zero => exact fun _ hsize => absurd hsize (Nat.not_lt_zero _)
  | succ fuel ih => exact fun hready hsize => matchStep_meets ih hready (Nat.lt_succ_iff.mp hsize)

end MLton.MatchCompile
