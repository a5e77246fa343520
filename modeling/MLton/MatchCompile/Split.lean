import MLton.MatchCompile.Typing

/-!
# MatchCompile/Split — how the rules are split by their first column

Whatever the key is, a rule goes to the case of its key, and to all cases and the defaults when it asks for
nothing; the order of the rules is kept (`splitRules_spec`).
-/

namespace MLton.MatchCompile

/-- The rules that ask for this in the first column, or for nothing. -/
def keepRules {β : Type} (asks : Pat → Bool) (rules : List (Rule β)) : List (Rule β) :=
  rules.filter fun r => r.head.isWild || asks r.head

theorem map_pats_keepRules {β : Type} (asks : Pat → Bool) (rules : List (Rule β)) :
    (keepRules asks rules).map Rule.pats = keep asks (rules.map Rule.pats) := by
  rw [keep, List.filter_map]
  rfl

theorem asked_map {β : Type} {asks : Pat → Bool} {rules : List (Rule β)} :
    Asked asks (rules.map Rule.pats) ↔ ∃ r ∈ rules, asks r.head = true := by
  constructor
  · rintro ⟨row, hrow, ha⟩
    obtain ⟨r, hr, rfl⟩ := List.mem_map.mp hrow
    exact ⟨r, hr, ha⟩
  · rintro ⟨r, hr, ha⟩
    exact ⟨r.pats, List.mem_map_of_mem hr, ha⟩

section Split

variable {κ π β : Type}

section

variable [DecidableEq κ]

/-- The case of the key takes one more rule. -/
def Split.extend (k : κ) (rule : Rule β) (c : Split κ π β) : Split κ π β :=
  if k = c.key then { c with rules := rule :: c.rules } else c

theorem Split.key_extend (k : κ) (rule : Rule β) (c : Split κ π β) : (c.extend k rule).key = c.key := by
  unfold Split.extend
  split <;> rfl

theorem Split.payload_extend (k : κ) (rule : Rule β) (c : Split κ π β) :
    (c.extend k rule).payload = c.payload := by
  unfold Split.extend
  split <;> rfl

theorem Split.extend_eq_self {k : κ} {rule : Rule β} {c : Split κ π β} (h : k ≠ c.key) :
    c.extend k rule = c := if_neg h

theorem Split.map_extend_eq_self {k : κ} {rule : Rule β} {cases : List (Split κ π β)}
    (h : k ∉ cases.map Split.key) : cases.map (Split.extend k rule) = cases := by
  refine (List.map_congr_left fun c hc => ?_).trans (List.map_id cases)
  exact Split.extend_eq_self fun hk => h (hk ▸ List.mem_map_of_mem hc)

/-- A rule goes to the case of its key, which is new when there is none. -/
theorem insertRule_perm (k : κ) (p : π) (rule : Rule β) (defaults : List (Rule β)) :
    ∀ (cases ac : List (Split κ π β)), (cases.map Split.key).Nodup →
      (insertRule k p rule defaults cases ac).Perm
        ((if k ∈ cases.map Split.key then cases.map (Split.extend k rule)
          else ⟨k, p, rule :: defaults⟩ :: cases) ++ ac)
  | [], ac, _ => by simp [insertRule]
  | c :: cases, ac, h => by
    rw [List.map_cons, List.nodup_cons] at h
    rw [insertRule]
    split
    next hk =>
      have hnot : k ∉ cases.map Split.key := hk ▸ h.1
      rw [if_pos (by simp [hk]), List.map_cons, Split.map_extend_eq_self hnot, Split.extend, if_pos hk]
      refine List.Perm.cons _ (List.perm_append_comm.trans ?_)
      exact List.Perm.append_left cases ac.reverse_perm
    next hk =>
      refine (insertRule_perm k p rule defaults cases (c :: ac) h.2).trans ?_
      have hmem : k ∈ (c :: cases).map Split.key ↔ k ∈ cases.map Split.key := by simp [hk]
      by_cases hin : k ∈ cases.map Split.key
      · rw [if_pos hin, if_pos (hmem.mpr hin), List.map_cons, Split.extend_eq_self hk]
        exact List.perm_middle
      · rw [if_neg hin, if_neg (hin ∘ hmem.mp)]
        exact List.Perm.cons _ List.perm_middle

end

/-- What `splitRules` gives. -/
structure SplitSpec (key : Pat → Option (κ × π)) (asks : κ → Pat → Bool) (rules : List (Rule β))
    (cases : List (Split κ π β)) : Prop where
  nodup : (cases.map Split.key).Nodup
  source : ∀ c ∈ cases, ∃ r ∈ rules, key r.head = some (c.key, c.payload)
  keys : ∀ r ∈ rules, ∀ k p, key r.head = some (k, p) → k ∈ cases.map Split.key
  rules_eq : ∀ c ∈ cases, c.rules = keepRules (asks c.key) rules

variable {key : Pat → Option (κ × π)} {asks : κ → Pat → Bool}

theorem keepRules_cons_wild {asks : Pat → Bool} {rule : Rule β} {rules : List (Rule β)}
    (h : rule.head = .wild) : keepRules asks (rule :: rules) = rule :: keepRules asks rules :=
  List.filter_cons_of_pos (by simp [h, Pat.isWild])

theorem keepRules_cons_asks {asks : Pat → Bool} {rule : Rule β} {rules : List (Rule β)}
    (h : asks rule.head = true) : keepRules asks (rule :: rules) = rule :: keepRules asks rules :=
  List.filter_cons_of_pos (by simp [h])

theorem keepRules_cons_neg {asks : Pat → Bool} {rule : Rule β} {rules : List (Rule β)}
    (hw : rule.head.isWild = false) (h : asks rule.head = false) :
    keepRules asks (rule :: rules) = keepRules asks rules :=
  List.filter_cons_of_neg (by simp [hw, h])

/-- Rules none of which has the key are kept only when they ask for nothing. -/
theorem keepRules_of_not_asked {asks : Pat → Bool} {rules : List (Rule β)}
    (h : ∀ r ∈ rules, asks r.head = false) : keepRules asks rules = keepRules (fun _ => false) rules :=
  List.filter_congr fun r hr => by rw [h r hr]

section Spec

variable {rule : Rule β} {rules : List (Rule β)} {cases : List (Split κ π β)} {k : κ} {p : π}

/-- A rule that asks for nothing goes everywhere. -/
theorem SplitSpec.cons_wild (spec : SplitSpec key asks rules cases) (hwild : key .wild = none)
    (hhead : rule.head = .wild) :
    SplitSpec key asks (rule :: rules) (cases.map fun c => { c with rules := rule :: c.rules }) := by
  have hkeys : (cases.map fun c => { c with rules := rule :: c.rules : Split κ π β }).map Split.key
      = cases.map Split.key := by
    rw [List.map_map]
    rfl
  refine ⟨hkeys ▸ spec.nodup, fun c hc => ?_, fun r hr k p hk => ?_, fun c hc => ?_⟩
  · obtain ⟨c, hin', rfl⟩ := List.mem_map.mp hc
    obtain ⟨r, hr, hk⟩ := spec.source c hin'
    exact ⟨r, List.mem_cons_of_mem _ hr, hk⟩
  · rw [hkeys]
    obtain rfl | hr := List.mem_cons.mp hr
    · rw [hhead, hwild] at hk
      exact absurd hk nofun
    · exact spec.keys r hr k p hk
  · obtain ⟨c, hin', rfl⟩ := List.mem_map.mp hc
    rw [keepRules_cons_wild hhead, spec.rules_eq c hin']

theorem asks_of_key (hasks : ∀ k p, asks k p = true ↔ ∃ q, key p = some (k, q)) (hkey : key rule.head = some (k, p)) : asks k rule.head = true :=
  (hasks k _).mpr ⟨p, hkey⟩

theorem not_asks_of_key (hasks : ∀ k p, asks k p = true ↔ ∃ q, key p = some (k, q))
    (hkey : key rule.head = some (k, p)) {k' : κ} (hk' : k' ≠ k) :
    asks k' rule.head = false := by
  refine Bool.eq_false_iff.mpr fun ha => hk' ?_
  obtain ⟨q, hq⟩ := (hasks k' _).mp ha
  rw [hkey] at hq
  exact (congrArg Prod.fst (Option.some.inj hq)).symm

/-- A rule with a new key. -/
theorem SplitSpec.cons_new (spec : SplitSpec key asks rules cases)
    (hasks : ∀ k p, asks k p = true ↔ ∃ q, key p = some (k, q)) (hnw : rule.head.isWild = false)
    (hkey : key rule.head = some (k, p)) (hin : k ∉ cases.map Split.key) :
    SplitSpec key asks (rule :: rules) (⟨k, p, rule :: keepRules (fun _ => false) rules⟩ :: cases) := by
  refine ⟨List.nodup_cons.mpr ⟨hin, spec.nodup⟩, fun c hc => ?_, fun r hr k' p' hk => ?_, fun c hc => ?_⟩
  · obtain rfl | hc := List.mem_cons.mp hc
    · exact ⟨rule, List.mem_cons_self, hkey⟩
    · obtain ⟨r, hr, hk⟩ := spec.source c hc
      exact ⟨r, List.mem_cons_of_mem _ hr, hk⟩
  · rw [List.map_cons]
    obtain rfl | hr := List.mem_cons.mp hr
    · rw [hkey] at hk
      obtain rfl : k = k' := congrArg Prod.fst (Option.some.inj hk)
      exact List.mem_cons_self
    · exact List.mem_cons_of_mem _ (spec.keys r hr k' p' hk)
  · obtain rfl | hc := List.mem_cons.mp hc
    · have hnot : ∀ r ∈ rules, asks k r.head = false := by
        refine fun r hr => Bool.eq_false_iff.mpr fun ha => hin ?_
        obtain ⟨q, hq⟩ := (hasks k _).mp ha
        exact spec.keys r hr k q hq
      rw [keepRules_cons_asks (asks_of_key hasks hkey), keepRules_of_not_asked hnot]
    · have hk : c.key ≠ k := fun hk => hin (hk ▸ List.mem_map_of_mem hc)
      rw [keepRules_cons_neg hnw (not_asks_of_key hasks hkey hk), spec.rules_eq c hc]

theorem SplitSpec.perm {cases' : List (Split κ π β)} (spec : SplitSpec key asks rules cases)
    (h : cases'.Perm cases) : SplitSpec key asks rules cases' :=
  ⟨(h.map Split.key).nodup_iff.mpr spec.nodup, fun c hc => spec.source c (h.mem_iff.mp hc),
    fun r hr k p hk => (h.map Split.key).mem_iff.mpr (spec.keys r hr k p hk),
    fun c hc => spec.rules_eq c (h.mem_iff.mp hc)⟩

variable [DecidableEq κ]

/-- A rule with the key of some case. -/
theorem SplitSpec.cons_old (spec : SplitSpec key asks rules cases)
    (hasks : ∀ k p, asks k p = true ↔ ∃ q, key p = some (k, q)) (hnw : rule.head.isWild = false)
    (hkey : key rule.head = some (k, p)) (hin : k ∈ cases.map Split.key) :
    SplitSpec key asks (rule :: rules) (cases.map (Split.extend k rule)) := by
  have hkeys : (cases.map (Split.extend k rule)).map Split.key = cases.map Split.key := by
    rw [List.map_map]
    exact List.map_congr_left fun c _ => Split.key_extend k rule c
  refine ⟨hkeys ▸ spec.nodup, fun c hc => ?_, fun r hr k' p' hk => ?_, fun c hc => ?_⟩
  · obtain ⟨c, hin', rfl⟩ := List.mem_map.mp hc
    obtain ⟨r, hr, hk⟩ := spec.source c hin'
    rw [Split.key_extend, Split.payload_extend]
    exact ⟨r, List.mem_cons_of_mem _ hr, hk⟩
  · rw [hkeys]
    obtain rfl | hr := List.mem_cons.mp hr
    · rw [hkey] at hk
      obtain rfl : k = k' := congrArg Prod.fst (Option.some.inj hk)
      exact hin
    · exact spec.keys r hr k' p' hk
  · obtain ⟨c, hin', rfl⟩ := List.mem_map.mp hc
    rw [Split.key_extend, Split.extend]
    split
    next hk =>
      subst hk
      rw [keepRules_cons_asks (asks_of_key hasks hkey), ← spec.rules_eq c hin']
    next hk =>
      rw [keepRules_cons_neg hnw (not_asks_of_key hasks hkey (Ne.symm hk)), ← spec.rules_eq c hin']

end Spec

/-- The keys are what is asked for. -/
theorem SplitSpec.asked_iff {rules : List (Rule β)} {cases : List (Split κ π β)}
    (spec : SplitSpec key asks rules cases) (hasks : ∀ k p, asks k p = true ↔ ∃ q, key p = some (k, q))
    {k : κ} : Asked (asks k) (rules.map Rule.pats) ↔ k ∈ cases.map Split.key := by
  rw [asked_map]
  constructor
  · rintro ⟨r, hr, ha⟩
    obtain ⟨p, hp⟩ := (hasks k _).mp ha
    exact spec.keys r hr k p hp
  · intro hk
    obtain ⟨c, hc, rfl⟩ := List.mem_map.mp hk
    obtain ⟨r, hr, hkey⟩ := spec.source c hc
    exact ⟨r, hr, (hasks _ _).mpr ⟨_, hkey⟩⟩

variable [DecidableEq κ]

/-- **The rules by their keys.** -/
theorem splitRules_spec (hasks : ∀ k p, asks k p = true ↔ ∃ q, key p = some (k, q))
    (hwild : key .wild = none) : ∀ {rules : List (Rule β)} {cases : List (Split κ π β)}
      {defaults : List (Rule β)}, splitRules key rules = some (cases, defaults) →
      SplitSpec key asks rules cases ∧ defaults = keepRules (fun _ => false) rules
  | [], _, _, h => by
    obtain ⟨rfl, rfl⟩ : [] = _ ∧ [] = _ := by simpa [splitRules] using h
    exact ⟨⟨List.nodup_nil, nofun, nofun, nofun⟩, rfl⟩
  | rule :: rules, _, _, h => by
    rw [splitRules, Option.bind_eq_some_iff] at h
    obtain ⟨⟨cases, defaults⟩, hrules, h⟩ := h
    obtain ⟨spec, rfl⟩ := splitRules_spec hasks hwild hrules
    dsimp only at h
    split at h
    next hhead =>
      obtain ⟨rfl, rfl⟩ := Prod.mk.inj (Option.some.inj h)
      exact ⟨spec.cons_wild hwild hhead, (keepRules_cons_wild hhead).symm⟩
    next hhead =>
      obtain ⟨⟨k, p⟩, hkey, h⟩ := Option.map_eq_some_iff.mp h
      obtain ⟨rfl, rfl⟩ := Prod.mk.inj h
      have hnw : rule.head.isWild = false := by
        cases hr : rule.head <;> first | rfl | exact absurd hr hhead
      refine ⟨?_, (keepRules_cons_neg hnw rfl).symm⟩
      have hperm := insertRule_perm k p rule (keepRules (fun _ => false) rules) cases [] spec.nodup
      rw [List.append_nil] at hperm
      by_cases hin : k ∈ cases.map Split.key
      · exact (spec.cons_old hasks hnw hkey hin).perm (by rwa [if_pos hin] at hperm)
      · exact (spec.cons_new hasks hnw hkey hin).perm (by rwa [if_neg hin] at hperm)

/-- **The split raises** when a pattern has no key. -/
theorem splitRules_isSome_iff : ∀ {rules : List (Rule β)},
    (splitRules key rules).isSome ↔ ∀ r ∈ rules, r.head.isWild = true ∨ (key r.head).isSome
  | [] => by simp [splitRules]
  | rule :: rules => by
    have ih : (splitRules key rules).isSome ↔ ∀ r ∈ rules, r.head.isWild = true ∨ (key r.head).isSome :=
      splitRules_isSome_iff
    rw [List.forall_mem_cons, ← ih, splitRules]
    cases splitRules key rules with
    | none => simp
    | some s =>
      rw [Option.bind_some]
      cases hhead : rule.head <;> simp [Pat.isWild]

end Split

end MLton.MatchCompile
