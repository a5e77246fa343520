import MLton.MatchCompile.Invariant

/-!
# MatchCompile/Columns — the kinds of columns and the tests of each

The patterns of a typed column are of one kind, unless string constants and vector patterns meet; each kind
of column has its own tests, and rows mix when they clash or some test of theirs leads to rows that do
(`mixes_iff`).
-/

namespace MLton.MatchCompile

/-- What a pattern asks for. -/
inductive Kind where
  | const
  | con
  | record
  | vector

/-- The kind of a pattern that asks for something. -/
def Pat.kind : Pat → Option Kind
  | con _ _ => some .con
  | conApp _ _ _ _ => some .con
  | const _ _ _ => some .const
  | record _ _ => some .record
  | vector _ => some .vector
  | wild => none

namespace Pat

theorem kind_eq_none : ∀ {p : Pat}, p.kind = none ↔ p.isWild = true
  | wild => by simp [isWild, kind]
  | con _ _ | conApp _ _ _ _ | const _ _ _ | record _ _ | vector _ => by simp [isWild, kind]

theorem not_isWild_of_kind {k : Kind} : ∀ {p : Pat}, p.kind = some k → p.isWild = false
  | wild, h => absurd h nofun
  | con _ _, _ | conApp _ _ _ _, _ | const _ _ _, _ | record _ _, _ | vector _, _ => rfl

theorem exists_const : ∀ {p : Pat}, p.kind = some .const → ∃ c isChar isInt, p = const c isChar isInt
  | const c isChar isInt, _ => ⟨c, isChar, isInt, rfl⟩
  | con _ _, h | conApp _ _ _ _, h | record _ _, h | vector _, h | wild, h => absurd h nofun

theorem exists_con : ∀ {p : Pat}, p.kind = some .con →
    (∃ c targs, p = con c targs) ∨ ∃ c targs q ty, p = conApp c targs q ty
  | con c targs, _ => .inl ⟨c, targs, rfl⟩
  | conApp c targs q ty, _ => .inr ⟨c, targs, q, ty, rfl⟩
  | const _ _ _, h | record _ _, h | vector _, h | wild, h => absurd h nofun

theorem exists_record : ∀ {p : Pat}, p.kind = some .record → ∃ fs ps, p = record fs ps
  | record fs ps, _ => ⟨fs, ps, rfl⟩
  | con _ _, h | conApp _ _ _ _, h | const _ _ _, h | vector _, h | wild, h => absurd h nofun

theorem exists_vector : ∀ {p : Pat}, p.kind = some .vector → ∃ ps, p = vector ps
  | vector ps, _ => ⟨ps, rfl⟩
  | con _ _, h | conApp _ _ _ _, h | const _ _ _, h | record _ _, h | wild, h => absurd h nofun

theorem isConst_iff {c : Const} : ∀ {p : Pat}, p.isConst c = true ↔ ∃ isChar isInt, p = const c isChar isInt
  | const _ _ _ => by simp [isConst]
  | con _ _ | conApp _ _ _ _ | wild | record _ _ | vector _ => by simp [isConst]

theorem isCon_iff {c : Con} : ∀ {p : Pat}, p.isCon c = true ↔
    (∃ targs, p = con c targs) ∨ ∃ targs q ty, p = conApp c targs q ty
  | con _ _ | conApp _ _ _ _ => by simp [isCon]
  | const _ _ _ | wild | record _ _ | vector _ => by simp [isCon]

theorem isLen_iff {n : ℕ} : ∀ {p : Pat}, p.isLen n = true ↔ ∃ ps, p = vector ps ∧ ps.length = n
  | vector _ => by simp [isLen]
  | con _ _ | conApp _ _ _ _ | const _ _ _ | record _ _ | wild => by simp [isLen]

theorem isRecord_iff {fs : List Field} : ∀ {p : Pat}, p.isRecord fs = true ↔ ∃ ps, p = record fs ps
  | record _ _ => by simp [isRecord]
  | con _ _ | conApp _ _ _ _ | const _ _ _ | vector _ | wild => by simp [isRecord]

theorem kind_of_isConst {c : Const} {p : Pat} (h : p.isConst c = true) : p.kind = some .const := by
  obtain ⟨_, _, rfl⟩ := isConst_iff.mp h
  rfl

theorem kind_of_isCon {c : Con} {p : Pat} (h : p.isCon c = true) : p.kind = some .con := by
  obtain ⟨_, rfl⟩ | ⟨_, _, _, rfl⟩ := isCon_iff.mp h <;> rfl

theorem kind_of_isLen {n : ℕ} {p : Pat} (h : p.isLen n = true) : p.kind = some .vector := by
  obtain ⟨_, rfl, -⟩ := isLen_iff.mp h
  rfl

theorem kind_of_isRecord {fs : List Field} {p : Pat} (h : p.isRecord fs = true) : p.kind = some .record := by
  obtain ⟨_, rfl⟩ := isRecord_iff.mp h
  rfl

/-- The kinds of patterns of a type. -/
def allowed : Ty → Kind → Bool
  | .con _ _, .con => true
  | .intInf, .const => true
  | .record _ _, .record => true
  | .vector _, .const => true
  | .vector _, .vector => true
  | .word _, .const => true
  | _, _ => false

theorem allowed_of_hasTy {D : Datatypes} {seqIndex : ℕ} {T : Ty} {k : Kind} : ∀ {p : Pat},
    p.HasTy D seqIndex T → p.kind = some k → allowed T k = true
  | con _ _, ⟨_, _, _, hT, _⟩, hk | conApp _ _ _ _, ⟨_, _, _, hT, _⟩, hk => by
    rw [hT, ← Option.some.inj hk]
    rfl
  | const c _ _, h, hk => by
    rw [← Option.some.inj hk]
    change constTy c T at h
    cases c <;> cases T <;> first | rfl | exact h.elim
  | record _ _, ⟨_, hT, _⟩, hk | vector _, ⟨_, hT, _⟩, hk => by
    rw [hT, ← Option.some.inj hk]
    rfl
  | wild, _, hk => absurd hk (by rintro ⟨⟩)

/-- Patterns of one type are of one kind, or a constant and a vector. -/
theorem eq_of_allowed {T : Ty} {k l : Kind} (hk : allowed T k = true) (hl : allowed T l = true) :
    k = l ∨ (k = .const ∧ l = .vector) ∨ (k = .vector ∧ l = .const) := by
  cases T <;> cases k <;> cases l <;> simp_all [allowed]

end Pat

/-! ## Columns -/

/-- The first column asks for one kind of thing. -/
structure Column (k : Kind) (rows : List Row) : Prop where
  all : ∀ r ∈ rows, r.head.isWild = true ∨ r.head.kind = some k
  some : ∃ r ∈ rows, r.head.kind = some k

variable {D : Datatypes} {rows rows' : List Row}

theorem Column.rule {β : Type} {rules : List (Rule β)} {k : Kind} (h : Column k (rules.map Rule.pats))
    {r : Rule β} (hr : r ∈ rules) : r.head.isWild = true ∨ r.head.kind = Option.some k :=
  h.all _ (List.mem_map_of_mem hr)

theorem Column.exists_rule {β : Type} {rules : List (Rule β)} {k : Kind} (h : Column k (rules.map Rule.pats)) :
    ∃ r ∈ rules, r.head.kind = Option.some k := by
  obtain ⟨row, hrow, hk⟩ := h.some
  obtain ⟨r, hr, rfl⟩ := List.mem_map.mp hrow
  exact ⟨r, hr, hk⟩

theorem Column.not_asked {k : Kind} (h : Column k rows) {asks : Pat → Bool} {l : Kind}
    (hasks : ∀ p, asks p = true → p.kind = Option.some l) (hkl : l ≠ k) : ¬ Asked asks rows := by
  rintro ⟨r, hr, ha⟩
  have hl := hasks _ ha
  obtain hw | hk := h.all r hr
  · rw [Pat.kind_eq_none.mpr hw] at hl
    exact absurd hl nofun
  · exact hkl (Option.some.inj (hl.symm.trans hk))

theorem Column.not_wild {k : Kind} (h : Column k rows) : ¬ ∀ r ∈ rows, r.head.isWild = true := by
  obtain ⟨r, hr, hk⟩ := h.some
  intro hall
  rw [Pat.kind_eq_none.mpr (hall r hr)] at hk
  exact absurd hk nofun

theorem asked_of_takes {c : Con} {n : ℕ} (h : Takes c n rows) : Asked (Pat.isCon c) rows := by
  obtain ⟨r, hr, ⟨-, targs, hp⟩ | ⟨-, targs, p, ty, hp⟩⟩ := h
  · exact ⟨r, hr, by rw [hp]; exact decide_eq_true rfl⟩
  · exact ⟨r, hr, by rw [hp]; exact decide_eq_true rfl⟩

theorem Column.not_clash {k : Kind} (h : Column k rows) : ¬ Clash rows := by
  rintro ⟨-, ⟨c, hc⟩, n, hn⟩
  cases k with
  | const => exact h.not_asked (fun _ => Pat.kind_of_isLen) nofun hn
  | _ => exact h.not_asked (fun _ => Pat.kind_of_isConst) nofun hc

/-- The tests of a column of constants. -/
theorem Column.tests_const (h : Column .const rows) : Tests D rows rows' ↔
    (∃ c, Asked (Pat.isConst c) rows ∧ rows' = (keep (Pat.isConst c) rows).map List.tail) ∨
      ¬ Handled (fun c => Asked (Pat.isConst c) rows) ∧ rows' = (keep (fun _ => false) rows).map List.tail := by
  constructor
  · intro ht
    cases ht with
    | none hw => exact absurd hw h.not_wild
    | const hc => exact .inl ⟨_, hc, rfl⟩
    | constDefault _ hh => exact .inr ⟨hh, rfl⟩
    | con hc => exact absurd (asked_of_takes hc) (h.not_asked (fun _ => Pat.kind_of_isCon) nofun)
    | conDefault hc _ => exact absurd hc (h.not_asked (fun _ => Pat.kind_of_isCon) nofun)
    | record hr => exact absurd hr (h.not_asked (fun _ => Pat.kind_of_isRecord) nofun)
    | vector hv | vectorDefault hv => exact absurd hv (h.not_asked (fun _ => Pat.kind_of_isLen) nofun)
  · rintro (⟨c, hc, rfl⟩ | ⟨hh, rfl⟩)
    · exact .const hc
    · obtain ⟨r, hr, hk⟩ := h.some
      cases hp : r.head with
      | const c isChar isInt =>
        exact .constDefault (c := c) ⟨r, hr, by rw [hp]; exact decide_eq_true rfl⟩ hh
      | _ => exact absurd (hp ▸ hk) nofun

/-- The tests of a column of constructors. -/
theorem Column.tests_con (h : Column .con rows) : Tests D rows rows' ↔
    (∃ c n, Takes c n rows ∧ rows' = spread n (keep (Pat.isCon c) rows)) ∨
      (∃ c, Asked (Pat.isCon c) rows ∧ (D.conTycon c = .exn ∨
        ∃ c' ∈ (D.tyconCons (D.conTycon c)).map Prod.fst, ¬ Asked (Pat.isCon c') rows)) ∧
        rows' = (keep (fun _ => false) rows).map List.tail := by
  constructor
  · intro ht
    cases ht with
    | none hw => exact absurd hw h.not_wild
    | const hc | constDefault hc _ => exact absurd hc (h.not_asked (fun _ => Pat.kind_of_isConst) nofun)
    | con hc => exact .inl ⟨_, _, hc, rfl⟩
    | conDefault hc hd => exact .inr ⟨⟨_, hc, hd⟩, rfl⟩
    | record hr => exact absurd hr (h.not_asked (fun _ => Pat.kind_of_isRecord) nofun)
    | vector hv | vectorDefault hv => exact absurd hv (h.not_asked (fun _ => Pat.kind_of_isLen) nofun)
  · rintro (⟨c, n, hc, rfl⟩ | ⟨⟨c, hc, hd⟩, rfl⟩)
    · exact .con hc
    · exact .conDefault hc hd

/-- The tests of a column of records. -/
theorem Column.tests_record (h : Column .record rows) : Tests D rows rows' ↔
    ∃ fs, Asked (Pat.isRecord fs) rows ∧ rows' = spread fs.length rows := by
  constructor
  · intro ht
    cases ht with
    | none hw => exact absurd hw h.not_wild
    | const hc | constDefault hc _ => exact absurd hc (h.not_asked (fun _ => Pat.kind_of_isConst) nofun)
    | con hc => exact absurd (asked_of_takes hc) (h.not_asked (fun _ => Pat.kind_of_isCon) nofun)
    | conDefault hc _ => exact absurd hc (h.not_asked (fun _ => Pat.kind_of_isCon) nofun)
    | record hr => exact ⟨_, hr, rfl⟩
    | vector hv | vectorDefault hv => exact absurd hv (h.not_asked (fun _ => Pat.kind_of_isLen) nofun)
  · rintro ⟨fs, hr, rfl⟩
    exact .record hr

/-- The tests of a column of vectors. -/
theorem Column.tests_vector (h : Column .vector rows) : Tests D rows rows' ↔
    (∃ n, Asked (Pat.isLen n) rows ∧ rows' = spread n (keep (Pat.isLen n) rows)) ∨
      rows' = (keep (fun _ => false) rows).map List.tail := by
  constructor
  · intro ht
    cases ht with
    | none hw => exact absurd hw h.not_wild
    | const hc | constDefault hc _ => exact absurd hc (h.not_asked (fun _ => Pat.kind_of_isConst) nofun)
    | con hc => exact absurd (asked_of_takes hc) (h.not_asked (fun _ => Pat.kind_of_isCon) nofun)
    | conDefault hc _ => exact absurd hc (h.not_asked (fun _ => Pat.kind_of_isCon) nofun)
    | record hr => exact absurd hr (h.not_asked (fun _ => Pat.kind_of_isRecord) nofun)
    | vector hv => exact .inl ⟨_, hv, rfl⟩
    | vectorDefault hv => exact .inr rfl
  · rintro (⟨n, hn, rfl⟩ | rfl)
    · exact .vector hn
    · obtain ⟨r, hr, hk⟩ := h.some
      cases hp : r.head with
      | vector ps => exact .vectorDefault (n := ps.length) ⟨r, hr, by rw [hp]; exact decide_eq_true rfl⟩
      | _ => exact absurd (hp ▸ hk) nofun

/-! ## Rows that mix -/

/-- **Rows mix** when they clash, or when some test leads to rows that do. -/
theorem mixes_iff : Mixes D rows ↔
    Clash rows ∨ Undecided rows ∧ ∃ rows', Tests D rows rows' ∧ Mixes D rows' := by
  constructor
  · rintro ⟨rows', hpath, hclash⟩
    obtain heq | ⟨mid, ⟨hund, htest⟩, hpath⟩ := hpath.cases_head
    · exact .inl (heq ▸ hclash)
    · exact .inr ⟨hund, mid, htest, rows', hpath, hclash⟩
  · rintro (hclash | ⟨hund, mid, htest, rows', hpath, hclash⟩)
    · exact ⟨rows, .refl, hclash⟩
    · exact ⟨rows', .head ⟨hund, htest⟩ hpath, hclash⟩

/-- Decided rows do not mix. -/
theorem not_mixes_of_decided (h : ¬ Undecided rows) : ¬ Mixes D rows := by
  rw [mixes_iff]
  rintro (hclash | ⟨hund, -⟩)
  · exact h hclash.1
  · exact h hund

/-- A column of one kind mixes only after a test. -/
theorem Column.not_mixes_iff {k : Kind} (h : Column k rows) (hund : Undecided rows) :
    ¬ Mixes D rows ↔ ∀ rows', Tests D rows rows' → ¬ Mixes D rows' := by
  rw [mixes_iff]
  constructor
  · exact fun hno rows' ht hm => hno (.inr ⟨hund, rows', ht, hm⟩)
  · rintro hall (hclash | ⟨-, rows', ht, hm⟩)
    · exact h.not_clash hclash
    · exact hall rows' ht hm

/-- A column that asks for nothing is only dropped. -/
theorem not_mixes_of_wild (hund : Undecided rows) (hwild : ∀ r ∈ rows, r.head.isWild = true) :
    ¬ Mixes D rows ↔ ¬ Mixes D (rows.map List.tail) := by
  have hno : ∀ {asks : Pat → Bool}, asks .wild = false → ¬ Asked asks rows := by
    rintro asks hasks ⟨r, hr, ha⟩
    rw [Pat.isWild_iff.mp (hwild r hr), hasks] at ha
    exact absurd ha nofun
  rw [mixes_iff, not_iff_not]
  constructor
  · rintro (⟨-, ⟨c, hc⟩, -⟩ | ⟨-, rows', ht, hm⟩)
    · exact absurd hc (hno rfl)
    · cases ht with
      | none _ => exact hm
      | const hc | constDefault hc _ => exact absurd hc (hno rfl)
      | con hc => exact absurd (asked_of_takes hc) (hno rfl)
      | conDefault hc _ => exact absurd hc (hno rfl)
      | record hr => exact absurd hr (hno rfl)
      | vector hv | vectorDefault hv => exact absurd hv (hno rfl)
  · exact fun hm => .inr ⟨hund, _, .none hwild, hm⟩

end MLton.MatchCompile
