import MLton.Ssa.Machine
import MLton.Ssa.Redundant

/-!
# Ssa/RedundantSound — what the pass merges is equal in every run

Values respect a list of elements when elements of one class have one value.  The variables of an
activation do, from its start and through every move, and so do the values that calls bring back.  Only
what a handler gets is not covered by the constraints: its formals must be told apart by the rest of the
program (`HandlersApart`).
-/

namespace MLton.Ssa.Redundant

open PartitionRefinement

/-! ## Merged elements -/

section Reds

variable {γ δ : Type} [DecidableEq γ] [DecidableEq δ] {r : List γ} {r' : List δ} {i j : ℕ}

@[simp] theorem length_makeReds : (makeReds r).length = r.length := by simp [makeReds]

theorem makeReds_getElem? : (makeReds r)[i]? = r[i]?.map (redOf (r.take i)) := by
  simp [makeReds, List.getElem?_mapIdx]

theorem redOf_redundant {seen : List γ} {c : γ} (h : redOf seen c = .redundant j) :
    seen[j]? = some c := by
  unfold redOf at h
  split at h
  · cases h
  · next k hk =>
    obtain rfl := Red.redundant.inj h
    obtain ⟨hlt, hc, -⟩ := List.findIdx?_eq_some_iff_getElem.mp hk
    rw [List.getElem?_eq_getElem hlt, of_decide_eq_true hc]

theorem redOf_useful {seen : List γ} {c : γ} : redOf seen c = .useful ↔ c ∉ seen := by
  unfold redOf
  split
  · next h =>
    refine iff_of_true rfl fun hc => ?_
    simpa using List.findIdx?_eq_none_iff.mp h c hc
  · next k hk =>
    obtain ⟨hlt, hc, -⟩ := List.findIdx?_eq_some_iff_getElem.mp hk
    refine iff_of_false (by rintro ⟨⟩) fun hnot => hnot ?_
    rw [← of_decide_eq_true hc]
    exact List.getElem_mem hlt

/-- A redundant element is in the class of the element that represents it. -/
theorem eq_of_redundant (h : (makeReds r)[i]? = some (.redundant j)) :
    j < i ∧ ∃ c, r[i]? = some c ∧ r[j]? = some c := by
  rw [makeReds_getElem?] at h
  obtain ⟨c, hc, hred⟩ := Option.map_eq_some_iff.mp h
  have hj := redOf_redundant hred
  rw [List.getElem?_take] at hj
  split at hj
  · next hlt => exact ⟨hlt, c, hc, hj⟩
  · cases hj

/-- Without two elements of one class, all are useful. -/
theorem useful_of_nodup (h : r.Nodup) : ∀ red ∈ makeReds r, red = .useful := by
  intro red hred
  obtain ⟨i, hi⟩ := List.mem_iff_getElem?.mp hred
  rw [makeReds_getElem?] at hi
  obtain ⟨c, hc, rfl⟩ := Option.map_eq_some_iff.mp hi
  refine redOf_useful.mpr fun hmem => ?_
  obtain ⟨j, hj⟩ := List.mem_iff_getElem?.mp hmem
  rw [List.getElem?_take] at hj
  split at hj
  · next hlt =>
    have hij : i = j := (List.getElem?_inj (List.getElem?_eq_some_iff.mp hc).1 h).mp (hc.trans hj.symm)
    exact absurd hlt (hij ▸ Nat.lt_irrefl i)
  · cases hj

/-- If all are useful, no two elements are in one class. -/
theorem nodup_of_useful (h : ∀ red ∈ makeReds r, red = .useful) : r.Nodup := by
  refine List.nodup_iff_getElem?_ne_getElem?.mpr fun j i hji hi heq => ?_
  have hred := h _ (List.mem_of_getElem? (makeReds_getElem?.trans
    (by rw [List.getElem?_eq_getElem hi, Option.map_some])))
  refine redOf_useful.mp hred (List.mem_of_getElem? (i := j) ?_)
  rw [List.getElem?_take, if_pos hji, heq, List.getElem?_eq_getElem hi]

theorem findIdx?_eq_of_map {c : γ} {c' : δ} {l : List γ} {l' : List δ}
    (h : l.map (fun x => decide (x = c)) = l'.map fun x => decide (x = c')) :
    l.findIdx? (· = c) = l'.findIdx? (· = c') := by
  have hid : ∀ l : List γ, l.findIdx? (· = c) = (l.map fun x => decide (x = c)).findIdx? id :=
    fun l => by simp [List.findIdx?_map]
  have hid' : ∀ l : List δ, l.findIdx? (· = c') = (l.map fun x => decide (x = c')).findIdx? id :=
    fun l => by simp [List.findIdx?_map]
  rw [hid, hid', h]

/-- What becomes of elements depends only on which of them are in one class. -/
theorem makeReds_congr (hlen : r.length = r'.length)
    (h : ∀ i j : ℕ, i < r.length → j < r.length → (r[i]? = r[j]? ↔ r'[i]? = r'[j]?)) :
    makeReds r = makeReds r' := by
  refine List.ext_getElem? fun i => ?_
  rw [makeReds_getElem?, makeReds_getElem?]
  obtain hi | hi := Nat.lt_or_ge i r.length
  · have hi' : i < r'.length := hlen ▸ hi
    have hfind : (r.take i).findIdx? (· = r[i]) = (r'.take i).findIdx? (· = r'[i]) := by
      refine findIdx?_eq_of_map (List.ext_getElem? fun k => ?_)
      rw [List.getElem?_map, List.getElem?_map, List.getElem?_take, List.getElem?_take]
      split
      · next hk =>
        have hk : k < r.length := hk.trans hi
        have hk' : k < r'.length := hlen ▸ hk
        have hiff := h k i hk hi
        simp only [List.getElem?_eq_getElem hi, List.getElem?_eq_getElem hi',
          List.getElem?_eq_getElem hk, List.getElem?_eq_getElem hk', Option.some.injEq,
          Option.map_some] at hiff ⊢
        exact decide_eq_decide.mpr hiff
      · rfl
    rw [List.getElem?_eq_getElem hi, List.getElem?_eq_getElem hi', Option.map_some, Option.map_some,
      redOf, redOf, hfind]
  · rw [List.getElem?_eq_none hi, List.getElem?_eq_none (hlen ▸ hi)]
    rfl

end Reds

section Replacements

variable {p : Program} {xts : List (Var × Ty)} {x y : Var}

/-- A formal is replaced by one of its class. -/
theorem classes_of_replacements (h : (x, y) ∈ replacements p xts) :
    (classes p).classOf (.var x) = (classes p).classOf (.var y) := by
  obtain ⟨⟨⟨x', t⟩, red⟩, hmem, h⟩ := List.mem_filterMap.mp h
  obtain ⟨k, hk⟩ := List.mem_iff_getElem?.mp hmem
  obtain ⟨hx, hred⟩ := List.getElem?_zip_eq_some.mp hk
  cases red with
  | useful => cases h
  | redundant i =>
    obtain ⟨yt, hy, heq⟩ := Option.map_eq_some_iff.mp h
    obtain ⟨rfl, rfl⟩ := Prod.mk.inj heq
    obtain ⟨-, c, hc, hc'⟩ := eq_of_redundant hred
    simp only [makeFormalsRel, List.map_map, List.getElem?_map, hx, hy, Option.map_some,
      Option.some.injEq] at hc hc'
    exact hc.trans hc'.symm

theorem classes_of_replacement (h : replacement p x = some y) :
    (classes p).classOf (.var x) = (classes p).classOf (.var y) := by
  obtain ⟨⟨x', y'⟩, hfind, rfl⟩ := Option.map_eq_some_iff.mp h
  obtain rfl : x' = x := by simpa using List.find?_some hfind
  obtain ⟨f, -, hmem⟩ := List.mem_flatMap.mp (List.mem_of_find?_eq_some hfind)
  obtain hmem | hmem := List.mem_append.mp hmem
  · exact classes_of_replacements hmem
  · obtain ⟨b, -, hmem⟩ := List.mem_flatMap.mp hmem
    exact classes_of_replacements hmem

end Replacements

/-! ## Values that respect the classes -/

section Respects

variable {p : Program} {G : List Var} {S : Signatures} {τ : Types} {f g : Function}
  {coarse fine es : Eqrel} {vs : List Val} {ρ : Env}

/-- Elements of one class have one value. -/
def Respects (p : Program) (es : Eqrel) (vs : List Val) : Prop :=
  ∀ (i j : ℕ) (e e' : Element), es[i]? = some e → es[j]? = some e' →
    (classes p).classOf e = (classes p).classOf e' → vs[i]? = vs[j]?

/-- Variables of one class have one value, or are both not bound yet. -/
def Agree (p : Program) (ρ : Env) : Prop :=
  ∀ x y, (classes p).classOf (.var x) = (classes p).classOf (.var y) → ρ x = ρ y

theorem Agree.respects (h : Agree p ρ) {xs : List Var} (hvs : ρ.all xs = some vs) :
    Respects p (varEquiv xs) vs := by
  intro i j e e' hi hj heq
  rw [varEquiv, List.getElem?_map] at hi hj
  obtain ⟨x, hx, rfl⟩ := Option.map_eq_some_iff.mp hi
  obtain ⟨y, hy, rfl⟩ := Option.map_eq_some_iff.mp hj
  obtain ⟨v, hv, hxv⟩ := Env.all_getElem? hvs hx
  obtain ⟨w, hw, hyw⟩ := Env.all_getElem? hvs hy
  rw [hv, hw, ← hxv, ← hyw, h x y heq]

/-- Elements that are all told apart are respected by any values. -/
theorem respects_of_apart (hnodup : es.Nodup) (h : ∀ e ∈ es, ∀ e' ∈ es,
    (classes p).classOf e = (classes p).classOf e' → e = e') : Respects p es vs := by
  intro i j e e' hi hj heq
  obtain rfl := h e (List.mem_of_getElem? hi) e' (List.mem_of_getElem? hj) heq
  rw [(List.getElem?_inj (List.getElem?_eq_some_iff.mp hi).1 hnodup).mp (hi.trans hj.symm)]

theorem Respects.of_flows (hscoped : p.Scoped G) (hagree : p.Agrees S τ) (hflows : Flows p coarse fine)
    (h : Respects p coarse vs) : Respects p fine vs := by
  have hlen := length_of_flows hagree hflows
  have hzip : ∀ {i : ℕ} {e : Element}, fine[i]? = some e → ∃ a, coarse[i]? = some a ∧ (a, e) ∈ coarse.zip fine := by
    intro i e hi
    have hlt : i < coarse.length := hlen ▸ (List.getElem?_eq_some_iff.mp hi).1
    refine ⟨coarse[i], List.getElem?_eq_getElem hlt, List.mem_of_getElem? (i := i) ?_⟩
    exact List.getElem?_zip_eq_some.mpr ⟨List.getElem?_eq_getElem hlt, hi⟩
  intro i j e e' hi hj heq
  obtain ⟨a, ha, hae⟩ := hzip hi
  obtain ⟨a', ha', hae'⟩ := hzip hj
  exact h i j a a' ha ha' (classes_of_flows hscoped hagree hflows hae hae' heq)

/-! ## The variables of an activation -/

variable (hscoped : p.Scoped G) (hagree : p.Agrees S τ)

include hscoped hagree

/-- Binding formals to values that respect them: other variables of a class keep what they have. -/
theorem Agree.sets (h : Agree p ρ) {o : Owner} {xts : List (Var × Ty)}
    (howned : Owned p o (makeFormalsRel xts)) (hlen : xts.length = vs.length)
    (hvs : Respects p (makeFormalsRel xts) vs) : Agree p (ρ.sets (xts.map Prod.fst) vs) := by
  have hnodup : (xts.map Prod.fst).Nodup := by
    have hmap : makeFormalsRel xts = (xts.map Prod.fst).map Element.var := by simp [makeFormalsRel]
    exact (hmap ▸ howned.1).of_map _
  have hall := Env.all_sets (ρ := ρ) hnodup (by rwa [List.length_map])
  have hvar : ∀ {x}, Element.var x ∈ makeFormalsRel xts ↔ x ∈ xts.map Prod.fst := by
    intro x
    simp [makeFormalsRel]
  intro x y heq
  obtain rfl | hxy := eq_or_ne x y
  · rfl
  have hiff : x ∈ xts.map Prod.fst ↔ y ∈ xts.map Prod.fst := by
    rw [← hvar, ← hvar]
    have hmade := made_of_classes hscoped hagree heq
    exact ⟨fun hx => howned.mem_of_made_eq hscoped hx hmade.symm,
      fun hy => howned.mem_of_made_eq hscoped hy hmade⟩
  by_cases hx : x ∈ xts.map Prod.fst
  · obtain ⟨i, hi⟩ := List.mem_iff_getElem?.mp hx
    obtain ⟨j, hj⟩ := List.mem_iff_getElem?.mp (hiff.mp hx)
    have helem : ∀ {i : ℕ} {x : Var}, (xts.map Prod.fst)[i]? = some x →
        (makeFormalsRel xts)[i]? = some (.var x) := by
      intro i x hi
      simp only [List.getElem?_map, Option.map_eq_some_iff] at hi
      obtain ⟨xt, hxt, rfl⟩ := hi
      simp [makeFormalsRel, hxt]
    obtain ⟨v, hv, hxv⟩ := Env.all_getElem? hall hi
    obtain ⟨w, hw, hyw⟩ := Env.all_getElem? hall hj
    rw [hxv, hyw, ← hv, ← hw]
    exact hvs i j _ _ (helem hi) (helem hj) heq
  · rw [Env.sets_of_notMem hx, Env.sets_of_notMem fun hy => hx (hiff.mpr hy)]
    exact h x y heq

end Respects

/-! ## Runs -/

/-- The formals of the block can hold different values, as far as the program's constraints say. -/
def FormalsApart (p : Program) (f : Function) (l : Label) : Prop :=
  ∀ e ∈ labelInfo f l, ∀ e' ∈ labelInfo f l, e ≠ e' → Told p e e'

/-- The formals of every block that handles what a callee may raise are told apart. -/
def HandlersApart (p : Program) : Prop :=
  ∀ f ∈ p.functions, ∀ b ∈ f.blocks, ∀ args func cont l g,
    b.transfer = .call args func (.nonTail cont (.handle l)) → p.function? func = some g →
      g.raises ≠ none → FormalsApart p f l

/-- In this state, a formal that is replaced has the value of its replacement; and where it returns,
every function that may return these values has the same value at the positions that are merged. -/
structure Merged (p : Program) (s : State) : Prop where
  formals : ∀ fr ∈ s.frames, ∀ x y, replacement p x = some y → fr.env x = fr.env y
  returns : ∀ fr stack t xs vs, s = .running fr stack t → fr.At (.ret xs) → fr.env.all xs = some vs →
    ∀ g ∈ p.functions, p.TailReaches g fr.func → ∀ i j : ℕ,
      (returnsRed p g)[i]? = some (.redundant j) → vs[i]? = vs[j]?

section Runs

variable {p : Program} {G : List Var} {S : Signatures} {τ : Types} {f g : Function}
  (hscoped : p.Scoped G) (hagree : p.Agrees S τ)

include hscoped hagree

theorem respects_of_formalsApart {l : Label} {b : Block} {vs : List Val} (hf : f ∈ p.functions)
    (hb : f.block? l = some b) (h : FormalsApart p f l) : Respects p (labelInfo f l) vs := by
  refine respects_of_apart (owned_label hscoped hf hb).1 fun e he e' he' heq => ?_
  by_contra hne
  exact (classes_eq_iff hscoped hagree).mp heq (h e he e' he' hne)

/-- **What is returned** respects the returns of every function that may return it. -/
theorem respects_returned {fr : Frame} {xs : List Var} {vs : List Val} (hfr : fr.func ∈ p.functions)
    (henv : Agree p fr.env) (hat : fr.At (.ret xs)) (hvs : fr.env.all xs = some vs)
    (h : p.TailReaches g fr.func) (hg : g ∈ p.functions) :
    ∃ e, returnInfo g = some e ∧ Respects p e vs := by
  revert hg
  induction h using Relation.ReflTransGen.head_induction_on with
  | refl =>
    intro _
    obtain ⟨b, hb, -, htr⟩ := hat
    have hb := Function.block?_mem hb
    obtain ⟨ts, -, hts⟩ := htr ▸ ((hagree _ hfr).2 b hb).1
    obtain ⟨e, hret⟩ := exists_returnInfo hts
    exact ⟨_, hret, (henv.respects hvs).of_flows hscoped hagree (.ret hfr hb htr hret)⟩
  | @head g g' hcall _ ih =>
    intro hg
    obtain ⟨b, hb, args, func, htr, hfunc⟩ := hcall
    obtain ⟨e', hret', hrespects⟩ := ih (Program.function?_mem hfunc)
    obtain ⟨callee, hcallee, -, hk⟩ := htr ▸ ((hagree g hg).2 b hb).1
    obtain rfl := Option.some.inj (hfunc.symm.trans hcallee)
    obtain ⟨ts, hts⟩ := returns_of_returnInfo hret'
    obtain ⟨e, hret⟩ := exists_returnInfo (hk.1 ts hts)
    exact ⟨_, hret, hrespects.of_flows hscoped hagree (.passedOn hg hb htr hfunc hret hret')⟩

omit hscoped in
/-- A function that lets an exception out may raise. -/
theorem raises_of_escapes {fr : Frame} {xs : List Var} (hfr : fr.func ∈ p.functions)
    (hat : fr.At (.raise xs)) (h : p.Escapes g fr.func) (hg : g ∈ p.functions) : g.raises ≠ none := by
  suffices ∃ ts, g.raises = some ts from fun hnone => by simp [hnone] at this
  revert hg
  induction h using Relation.ReflTransGen.head_induction_on with
  | refl =>
    intro _
    obtain ⟨b, hb, -, htr⟩ := hat
    obtain ⟨ts, -, hts⟩ := htr ▸ ((hagree _ hfr).2 b (Function.block?_mem hb)).1
    exact ⟨ts, hts⟩
  | @head g g' hcall _ ih =>
    intro hg
    obtain ⟨b, hb, args, func, htr, hfunc⟩ | ⟨cont, b, hb, args, func, htr, hfunc⟩ := hcall
    all_goals
      obtain ⟨ts, hts⟩ := ih (Program.function?_mem hfunc)
      obtain ⟨callee, hcallee, -, hk⟩ := htr ▸ ((hagree g hg).2 b hb).1
      obtain rfl := Option.some.inj (hfunc.symm.trans hcallee)
      exact ⟨ts, hk.2 ts hts⟩

variable (happart : HandlersApart p)
  (hruntime : ∀ prim ts ts', S.runtime prim ts ts' → ts'.length ≤ 1)

include happart hruntime

/-- What is passed to a block respects its formals. -/
theorem respects_passed {fr : Frame} {tr : Transfer} {l : Label} {b : Block} {vs : List Val}
    (hfr : fr.func ∈ p.functions) (henv : Agree p fr.env) (hat : fr.At tr)
    (hpass : tr.Passes p (fun fr => fr.func ∈ p.functions ∧ Agree p fr.env) fr.env l vs)
    (hb : fr.func.block? l = some b) (hlen : b.args.length = vs.length) :
    Respects p (labelInfo fr.func l) vs := by
  obtain ⟨b₀, hb₀, -, htr⟩ := hat
  have hmem := Function.block?_mem hb₀
  have hinfo : (labelInfo fr.func l).length = vs.length := by
    simp [labelInfo, hb, makeFormalsRel, hlen]
  -- a block with one formal or none
  have hsmall : (labelInfo fr.func l).length ≤ 1 → Respects p (labelInfo fr.func l) vs :=
    fun hle => respects_of_apart (owned_label hscoped hfr hb).1 fun e he e' he' _ =>
      eq_of_length_le_one hle he he'
  cases hpass with
  | @returned args func cont handler _ g fr' xs hg hreach hfr' hat' hvs =>
    obtain ⟨e, hret, hrespects⟩ := respects_returned hscoped hagree hfr'.1 hfr'.2 hat' hvs hreach
      (Program.function?_mem hg)
    exact hrespects.of_flows hscoped hagree (.returned hfr hmem htr hg hret)
  | @raised args func cont _ _ g fr' xs hg hesc hfr' hat' hvs =>
    have hraises := raises_of_escapes hagree hfr'.1 hat' hesc (Program.function?_mem hg)
    exact respects_of_formalsApart hscoped hagree hfr hb
      (happart _ hfr b₀ hmem args func cont l g htr hg hraises)
  | @case test cases default v _ _ hv htarget =>
    cases cases with
    | con arms =>
      simp only [Cases.target, Option.or_eq_some_iff, Option.map_eq_some_iff, Prod.mk.injEq] at htarget
      obtain htarget | ⟨-, l', -, rfl, rfl⟩ := htarget
      · cases v with
        | con con ws =>
          obtain ⟨arm, harm, heq⟩ := Option.map_eq_some_iff.mp htarget
          obtain ⟨rfl, rfl⟩ := Prod.mk.inj heq
          refine respects_of_apart (owned_label hscoped hfr hb).1 fun e he e' _ heq => ?_
          exact eq_of_bound hscoped hagree ⟨_, hfr, b₀, hmem, test, arms, default, htr, arm,
            List.mem_of_find?_eq_some harm, he⟩ heq
        | const | other | tuple => simp [conArm] at htarget
      · exact hsmall (hinfo.trans_le (Nat.zero_le 1))
    | word size arms =>
      obtain ⟨l', -, heq⟩ := Option.map_eq_some_iff.mp htarget
      obtain ⟨rfl, rfl⟩ := Prod.mk.inj heq
      exact hsmall (hinfo.trans_le (Nat.zero_le 1))
  | goto hvs => exact (henv.respects hvs).of_flows hscoped hagree (.goto hfr hmem htr)
  | runtime =>
    obtain ⟨ts, ts', -, hformals, hprim⟩ := htr ▸ ((hagree _ hfr).2 b₀ hmem).1
    exact hsmall (length_labelInfo hformals ▸ hruntime _ _ _ hprim)

/-- **Activations keep their classes**: variables of one class have one value. -/
theorem kept_agree (W : World) {globals : Env} (hglobals : ∀ x v, globals x = some v → x ∈ G) :
    Kept W p globals fun fr => fr.func ∈ p.functions ∧ Agree p fr.env := by
  refine ⟨fun {f vs fr} hactivates hfr => ?_, fun {fr b s t v t'} hI hb hs _ => ?_,
    fun {fr tr l vs fr'} hI hat hpass hfr' => ?_⟩
  · have hf := hactivates.mem
    obtain ⟨hlen, hfr⟩ := Option.ite_none_right_eq_some.mp hfr
    obtain rfl := Option.some.inj hfr
    have howned := owned_args hscoped hf
    refine ⟨hf, Agree.sets hscoped hagree ?_ howned hlen ?_⟩
    · -- nothing but globals is bound yet
      intro x y heq
      obtain rfl | hxy := eq_or_ne x y
      · rfl
      obtain ⟨o, t, hx, hy⟩ := owner_of_classes hscoped hagree heq fun h => hxy (Element.var.inj h)
      have hnone : ∀ {z}, z ∉ G → globals z = none := fun {z} hz =>
        Option.eq_none_iff_forall_ne_some.mpr fun v hv => hz (hglobals z v hv)
      rw [hnone (notMem_globals hscoped hx), hnone (notMem_globals hscoped hy)]
    · cases hactivates with
      | main =>
        refine respects_of_apart howned.1 fun e he => ?_
        rw [List.length_eq_zero_iff.mp hlen] at he
        cases he
      | call hfr₀ hat hfunc hvs =>
        obtain ⟨b, hb, -, htr⟩ := hat
        exact (hfr₀.2.respects hvs).of_flows hscoped hagree
          (.call hfr₀.1 (Function.block?_mem hb) htr hfunc)
  · obtain ⟨hf, henv⟩ := hI
    refine ⟨hf, fun x y heq => ?_⟩
    obtain rfl | hxy := eq_or_ne x y
    · rfl
    obtain ⟨o, t, hx, hy⟩ := owner_of_classes hscoped hagree heq fun h => hxy (Element.var.inj h)
    have hother : ∀ {z}, (.var z, o, t) ∈ positions p → (fr.advance s v).env z = fr.env z := by
      intro z hz
      cases hvar : s.var with
      | none => simp [Frame.advance, hvar]
      | some z' =>
        simp only [Frame.advance, hvar, Option.elim_some]
        refine Env.set_of_ne fun h => ?_
        subst h
        exact not_binds_statement hscoped hz hf (.statement hb hs hvar)
    rw [hother hx, hother hy, henv x y heq]
  · obtain ⟨b, hb, h⟩ := Option.bind_eq_some_iff.mp hfr'
    obtain ⟨hlen, h⟩ := Option.ite_none_right_eq_some.mp h
    obtain rfl := Option.some.inj h
    have hinfo : labelInfo fr.func l = makeFormalsRel b.args := by rw [labelInfo, hb]; rfl
    have howned := owned_label hscoped hI.1 hb
    have hrespects := respects_passed hscoped hagree happart hruntime hI.1 hI.2 hat hpass hb hlen
    rw [hinfo] at howned hrespects
    exact ⟨hI.1, hI.2.sets hscoped hagree howned hlen hrespects⟩

/-- **Merged elements are equal**: the formals that the pass replaces, and what it takes out of returns. -/
theorem merged_equal (W : World) {globals : Env} (hglobals : ∀ x v, globals x = some v → x ∈ G)
    {s : State} (hs : p.Reaches W globals s) : Merged p s := by
  have hheld := hs.held (kept_agree hscoped hagree happart hruntime W hglobals)
  refine ⟨fun fr hfr x y h => (hheld.frames hfr).2 x y (classes_of_replacement h), ?_⟩
  rintro fr stack t xs vs rfl hat hvs g hg hreach i j hred
  obtain ⟨hfr, henv⟩ := hheld.1
  obtain ⟨e, hret, hrespects⟩ := respects_returned hscoped hagree hfr henv hat hvs hreach hg
  rw [returnsRed, hret] at hred
  obtain ⟨-, c, hc, hc'⟩ := eq_of_redundant hred
  rw [List.getElem?_map] at hc hc'
  obtain ⟨e₁, he₁, rfl⟩ := Option.map_eq_some_iff.mp hc
  obtain ⟨e₂, he₂, heq⟩ := Option.map_eq_some_iff.mp hc'
  exact hrespects i j e₁ e₂ he₁ he₂ heq.symm

end Runs

end MLton.Ssa.Redundant
