import MLton.Ssa.RedundantSound

/-!
# Ssa/RedundantOutput — the rewritten program passes what its targets expect

Elements tied in both directions have the same representatives, so a call, a goto and a return drop the
same positions on either side.  A raise drops nothing: the output agrees exactly when no handler loses a
formal (`transform_sound_iff`).
-/

namespace MLton.Ssa.Redundant

open PartitionRefinement

/-! ## Keeping what is useful -/

section Useful

variable {α β : Type} {reds : List Red} {xs : List α} {x : α}

@[simp] theorem keepUseful_nil : keepUseful [] xs = [] := by simp [keepUseful]

@[simp] theorem keepUseful_nil_right : keepUseful reds ([] : List α) = [] := by
  rcases reds with _ | ⟨_ | _, _⟩ <;> simp [keepUseful]

@[simp] theorem keepUseful_useful : keepUseful (.useful :: reds) (x :: xs) = x :: keepUseful reds xs :=
  rfl

@[simp] theorem keepUseful_redundant {i : ℕ} :
    keepUseful (.redundant i :: reds) (x :: xs) = keepUseful reds xs := rfl

theorem keepUseful_sublist : (keepUseful reds xs).Sublist xs := by
  induction xs generalizing reds with
  | nil => simp
  | cons x xs ih =>
    rcases reds with _ | ⟨_ | i, reds⟩
    · simp
    · exact ih.cons_cons x
    · exact ih.cons x

theorem keepUseful_map (g : α → β) : keepUseful reds (xs.map g) = (keepUseful reds xs).map g := by
  induction xs generalizing reds with
  | nil => simp
  | cons x xs ih => rcases reds with _ | ⟨_ | i, reds⟩ <;> simp [ih]

/-- The types of what is kept. -/
theorem all_keepUseful {τ : Types} {xs : List Var} {ts : List Ty} (h : τ.all xs = some ts) :
    τ.all (keepUseful reds xs) = some (keepUseful reds ts) := by
  refine Fold.mapM_eq_some.mpr ?_
  replace h := Fold.mapM_eq_some.mp h
  induction h generalizing reds with
  | nil => simp
  | cons hx _ ih =>
    rcases reds with _ | ⟨_ | i, reds⟩
    · simp
    · exact .cons hx ih
    · exact ih

theorem keepUseful_eq_self : ∀ {reds : List Red} {xs : List α}, (∀ red ∈ reds, red = .useful) →
    reds.length = xs.length → keepUseful reds xs = xs
  | [], [], _, _ => rfl
  | .useful :: _, x :: _, h, hlen =>
    congrArg (x :: ·) (keepUseful_eq_self (fun red hred => h red (List.mem_cons_of_mem _ hred))
      (Nat.succ.inj hlen))
  | .redundant _ :: _, _, h, _ => by cases h _ (List.mem_cons_self ..)

/-- If nothing is lost, everything is useful. -/
theorem useful_of_length : ∀ {reds : List Red} {xs : List α}, reds.length = xs.length →
    (keepUseful reds xs).length = xs.length → ∀ red ∈ reds, red = .useful
  | [], _, _, _, _, hred => by cases hred
  | .useful :: _, _ :: _, hlen, hkeep, red, hred => by
    obtain rfl | hred := List.mem_cons.mp hred
    · rfl
    · exact useful_of_length (Nat.succ.inj hlen) (Nat.succ.inj hkeep) red hred
  | .redundant i :: reds, x :: xs, hlen, hkeep, _, _ => by
    have hle : (keepUseful (.redundant i :: reds) (x :: xs)).length ≤ xs.length :=
      (keepUseful_sublist : (keepUseful reds xs).Sublist xs).length_le
    exact absurd (hkeep ▸ hle) (Nat.not_succ_le_self _)

end Useful

/-! ## The rewritten program -/

section Output

variable {p : Program} {G : List Var} {S : Signatures} {τ : Types} {f g : Function} {b : Block}
  {l : Label} {xs : List Var} {ts : List Ty}

theorem labelReds_eq (hb : f.block? l = some b) : labelReds p f l = argsRed p b.args := by
  rw [labelReds, hb]
  rfl

theorem labelInfo_eq (hb : f.block? l = some b) : labelInfo f l = makeFormalsRel b.args := by
  rw [labelInfo, hb]
  rfl

@[simp] theorem length_argsRed {xts : List (Var × Ty)} : (argsRed p xts).length = xts.length := by
  simp [argsRed, makeFormalsRel]

theorem block?_rewrite : (rewrite p f).block? l = (f.block? l).map (rewriteBlock p f) :=
  Function.block?_map (g := rewriteBlock p f) rfl (fun _ => rfl) l

/-- The formals of the rewritten block. -/
theorem formals_rewrite (h : f.Formals l ts) :
    (rewrite p f).Formals l (keepUseful (labelReds p f l) ts) := by
  obtain ⟨b, hb, rfl⟩ := h
  refine ⟨rewriteBlock p f b, by rw [block?_rewrite, hb]; rfl, ?_⟩
  rw [labelReds_eq hb, keepUseful_map]
  rfl

/-- A block that loses no formal. -/
theorem formals_rewrite_useful (h : f.Formals l ts) (huseful : ∀ red ∈ labelReds p f l, red = .useful) :
    (rewrite p f).Formals l ts := by
  have hf := formals_rewrite (p := p) h
  obtain ⟨b, hb, rfl⟩ := h
  rwa [keepUseful_eq_self huseful] at hf
  rw [labelReds_eq hb, length_argsRed, List.length_map]

theorem function?_transform (hscoped : p.Scoped G) {func : Func} (h : p.function? func = some g) :
    (transform p).function? func = some (rewrite p g) := by
  have hmem : rewrite p g ∈ (transform p).functions :=
    List.mem_reverse.mpr (List.mem_map_of_mem (Program.function?_mem h))
  have hname : (rewrite p g).name = func := by simpa [rewrite] using List.find?_some h
  have hnodup : ((transform p).functions.map Function.name).Nodup := by
    have hmap : (p.functions.map (rewrite p)).map Function.name = p.functions.map Function.name := by
      rw [List.map_map]
      rfl
    simp only [transform, List.map_reverse, List.nodup_reverse]
    exact hmap ▸ hscoped.names
  have hfind := Fold.find?_key hnodup _ hmem
  rwa [hname] at hfind

variable (hscoped : p.Scoped G) (hagree : p.Agrees S τ)

include hscoped hagree

omit hscoped in
theorem type_of_position {x : Var} {o : Owner} {t : Ty} (h : (.var x, o, t) ∈ positions p) :
    τ x = some t := by
  obtain ⟨f, hf, ⟨y, hy, heq, -⟩ | ⟨_, _, heq, -⟩ | ⟨b, hb, y, hy, heq, -⟩⟩ := mem_positions.mp h
  · obtain rfl := Element.var.inj heq
    exact (hagree f hf).1 _ hy
  · cases heq
  · obtain rfl := Element.var.inj heq
    exact ((hagree f hf).2 b hb).2 _ hy

/-- A replacement has the type of what it replaces. -/
theorem type_loopVar (x : Var) : τ (loopVar p x) = τ x := by
  unfold loopVar
  cases h : replacement p x with
  | none => rfl
  | some y =>
    obtain rfl | hxy := eq_or_ne x y
    · rfl
    obtain ⟨o, t, hx, hy⟩ := owner_of_classes hscoped hagree (classes_of_replacement h)
      fun heq => hxy (Element.var.inj heq)
    rw [Option.getD_some, type_of_position hagree hx, type_of_position hagree hy]

theorem all_loopVars : τ.all (loopVars p xs) = τ.all xs := by
  rw [Types.all, loopVars, List.mapM_map]
  congr 1
  funext x
  exact type_loopVar hscoped hagree x

/-- Lists tied in both directions have the same representatives. -/
theorem makeReds_eq_of_flows {e e' : Eqrel} (h : Flows p e e') (h' : Flows p e' e) :
    makeReds (e.map (classes p).classOf) = makeReds (e'.map (classes p).classOf) := by
  have hlen := length_of_flows hagree h
  refine makeReds_congr (by simpa using hlen) fun i j hi hj => ?_
  rw [List.length_map] at hi hj
  have hi' : i < e'.length := hlen ▸ hi
  have hj' : j < e'.length := hlen ▸ hj
  have hzip : ∀ {es es' : Eqrel} {k : ℕ} (hk : k < es.length) (hk' : k < es'.length),
      (es[k], es'[k]) ∈ es.zip es' := fun {es es' k} hk hk' =>
    List.mem_of_getElem? (i := k) (List.getElem?_zip_eq_some.mpr
      ⟨List.getElem?_eq_getElem hk, List.getElem?_eq_getElem hk'⟩)
  simp only [List.getElem?_map, List.getElem?_eq_getElem hi, List.getElem?_eq_getElem hj,
    List.getElem?_eq_getElem hi', List.getElem?_eq_getElem hj', Option.map_some, Option.some.injEq]
  exact ⟨classes_of_flows hscoped hagree h' (hzip hi' hi) (hzip hj' hj),
    classes_of_flows hscoped hagree h (hzip hi hi') (hzip hj hj')⟩

theorem useful_of_formalsApart (hf : f ∈ p.functions) (hb : f.block? l = some b)
    (h : FormalsApart p f l) : ∀ red ∈ labelReds p f l, red = .useful := by
  rw [labelReds_eq hb, argsRed, ← labelInfo_eq hb]
  refine useful_of_nodup ((owned_label hscoped hf hb).1.map_on fun e he e' he' heq => ?_)
  by_contra hne
  exact (classes_eq_iff hscoped hagree).mp heq (h e he e' he' hne)

theorem formalsApart_of_useful (hb : f.block? l = some b)
    (h : ∀ red ∈ labelReds p f l, red = .useful) : FormalsApart p f l := by
  rw [labelReds_eq hb, argsRed, ← labelInfo_eq hb] at h
  intro e he e' he' hne
  by_contra htold
  have heq := (classes_eq_iff hscoped hagree).mpr htold
  exact hne (List.inj_on_of_nodup_map (nodup_of_useful h) he he' heq)

/-- What a call brings back drops the same positions as the formals of its continuation. -/
theorem returnsRed_eq_labelReds {args : List Var} {func : Func} {cont : Label} {handler : Handler}
    (hf : f ∈ p.functions) (hb : b ∈ f.blocks)
    (htr : b.transfer = .call args func (.nonTail cont handler)) (hg : p.function? func = some g)
    (hts : g.returns = some ts) (hcont : f.Formals cont ts) : returnsRed p g = labelReds p f cont := by
  obtain ⟨e, hret⟩ := exists_returnInfo hts
  obtain ⟨b', hb', -⟩ := hcont
  rw [labelReds_eq hb', argsRed, ← labelInfo_eq hb', returnsRed, hret]
  exact makeReds_eq_of_flows hscoped hagree (.returned hf hb htr hg hret) (.awaited hf hb htr hg hret)

/-- A tail call drops the same positions as its caller. -/
theorem returnsRed_eq {args : List Var} {func : Func} (hf : f ∈ p.functions) (hb : b ∈ f.blocks)
    (htr : b.transfer = .call args func .tail) (hg : p.function? func = some g)
    (hts : g.returns = some ts) (hts' : f.returns = some ts) : returnsRed p g = returnsRed p f := by
  obtain ⟨e, hret⟩ := exists_returnInfo hts'
  obtain ⟨e', hret'⟩ := exists_returnInfo hts
  rw [returnsRed, returnsRed, hret, hret']
  exact makeReds_eq_of_flows hscoped hagree (.passedOn hf hb htr hg hret hret')
    (.passedBack hf hb htr hg hret hret')

/-- The rewritten transfers agree with the rewritten targets, where no handler loses a formal. -/
theorem agrees_rewriteTransfer (happart : HandlersApart p)
    (hruntime : ∀ prim ts ts', S.runtime prim ts ts' → ts'.length ≤ 1) (hf : f ∈ p.functions)
    (hb : b ∈ f.blocks) :
    (rewriteTransfer p f b.transfer).Agrees S τ (transform p) (rewrite p f) := by
  have htyped := ((hagree f hf).2 b hb).1
  have hkept : ∀ {xs ts reds}, τ.all xs = some ts →
      τ.all (loopVars p (keepUseful reds xs)) = some (keepUseful reds ts) := fun h =>
    (all_loopVars hscoped hagree).trans (all_keepUseful h)
  cases htr : b.transfer with
  | bug => trivial
  | call args func k =>
    obtain ⟨g, hg, hargs, hk⟩ := htr ▸ htyped
    refine ⟨rewrite p g, function?_transform hscoped hg, ?_, ?_⟩
    · rw [funcReds, hg]
      exact (hkept hargs).trans (congrArg some (keepUseful_map Prod.snd))
    cases k with
    | dead => exact ⟨by rw [rewrite, hk.1]; rfl, hk.2⟩
    | tail =>
      refine ⟨fun ts' hts' => ?_, hk.2⟩
      obtain ⟨ts, hts, rfl⟩ := Option.map_eq_some_iff.mp hts'
      have hts₁ := hk.1 ts hts
      rw [returnsRed_eq hscoped hagree hf hb htr hg hts hts₁]
      exact Option.map_eq_some_iff.mpr ⟨ts, hts₁, rfl⟩
    | nonTail cont handler =>
      refine ⟨fun ts' hts' => ?_, ?_⟩
      · obtain ⟨ts, hts, rfl⟩ := Option.map_eq_some_iff.mp hts'
        have hcont := hk.1 ts hts
        rw [returnsRed_eq_labelReds hscoped hagree hf hb htr hg hts hcont]
        exact formals_rewrite hcont
      · cases handler with
        | caller | dead => exact hk.2
        | handle l =>
          intro ts hts
          have hformals := hk.2 ts hts
          obtain ⟨b', hb', -⟩ := id hformals
          have hraises : g.raises ≠ none := fun h => by
            rw [show (rewrite p g).raises = none from h] at hts
            cases hts
          exact formals_rewrite_useful hformals (useful_of_formalsApart hscoped hagree hf hb'
            (happart f hf b hb args func cont l g htr hg hraises))
  | case test cases default =>
    obtain ⟨hcases, hdefault⟩ := htr ▸ htyped
    have hnil : ∀ {l}, f.Formals l [] → (rewrite p f).Formals l [] := fun h => by
      simpa using formals_rewrite (p := p) h
    refine ⟨?_, fun l hl => hnil (hdefault l hl)⟩
    cases cases with
    | word size arms => exact fun arm harm => hnil (hcases arm harm)
    | con arms =>
      intro arm harm
      obtain ⟨b', hb', -⟩ := id (hcases arm harm)
      refine formals_rewrite_useful (hcases arm harm) (useful_of_formalsApart hscoped hagree hf hb' ?_)
      exact fun e he e' _ hne =>
        .bound (.inl ⟨f, hf, b, hb, test, arms, default, htr, arm, harm, he⟩) hne
  | goto dst args =>
    obtain ⟨ts, hts, hdst⟩ := htr ▸ htyped
    exact ⟨_, hkept hts, formals_rewrite hdst⟩
  | raise xs =>
    obtain ⟨ts, hts, hraises⟩ := htr ▸ htyped
    exact ⟨ts, (all_loopVars hscoped hagree).trans hts, hraises⟩
  | ret xs =>
    obtain ⟨ts, hts, hret⟩ := htr ▸ htyped
    exact ⟨_, hkept hts, Option.map_eq_some_iff.mpr ⟨ts, hret, rfl⟩⟩
  | runtime prim args l =>
    obtain ⟨ts, ts', hts, hl, hprim⟩ := htr ▸ htyped
    refine ⟨ts, ts', (all_loopVars hscoped hagree).trans hts, ?_, hprim⟩
    obtain ⟨b', hb', rfl⟩ := id hl
    refine formals_rewrite_useful hl (useful_of_formalsApart hscoped hagree hf hb' ?_)
    rw [FormalsApart, labelInfo_eq hb']
    have hle : (makeFormalsRel b'.args).length ≤ 1 := by
      simpa [makeFormalsRel] using hruntime _ _ _ hprim
    exact fun e he e' he' hne => absurd (eq_of_length_le_one hle he he') hne

/-- **The output agrees** where no handler loses a formal. -/
theorem agrees_transform (happart : HandlersApart p)
    (hruntime : ∀ prim ts ts', S.runtime prim ts ts' → ts'.length ≤ 1) : (transform p).Agrees S τ := by
  intro f' hf'
  obtain ⟨f, hf, rfl⟩ := List.mem_map.mp (List.mem_reverse.mp hf')
  refine ⟨fun vt hvt => (hagree f hf).1 vt (keepUseful_sublist.subset hvt), fun b' hb' => ?_⟩
  obtain ⟨b, hb, rfl⟩ := List.mem_map.mp hb'
  exact ⟨agrees_rewriteTransfer hscoped hagree happart hruntime hf hb,
    fun vt hvt => ((hagree f hf).2 b hb).2 vt (keepUseful_sublist.subset hvt)⟩

/-- If the output agrees, no handler of what is raised loses a formal. -/
theorem handlersApart_of_agrees (h : (transform p).Agrees S τ) : HandlersApart p := by
  intro f hf b hb args func cont l g htr hg hraises
  have hf' : rewrite p f ∈ (transform p).functions := List.mem_reverse.mpr (List.mem_map_of_mem hf)
  have htyped : (rewriteTransfer p f b.transfer).Agrees S τ (transform p) (rewrite p f) :=
    ((h _ hf').2 _ (List.mem_map_of_mem hb)).1
  rw [htr] at htyped
  obtain ⟨g', hg', -, -, hhandle⟩ := htyped
  obtain rfl := Option.some.inj ((function?_transform hscoped hg).symm.trans hg')
  obtain ⟨g₀, hg₀, -, -, hformals⟩ := htr ▸ ((hagree f hf).2 b hb).1
  obtain rfl := Option.some.inj (hg.symm.trans hg₀)
  obtain ⟨ts, hts⟩ := Option.ne_none_iff_exists'.mp hraises
  obtain ⟨b₁, hb₁, hargs⟩ := hformals ts hts
  obtain ⟨b₂, hb₂, hargs'⟩ := hhandle ts hts
  rw [block?_rewrite, hb₁] at hb₂
  obtain rfl := Option.some.inj hb₂
  refine formalsApart_of_useful hscoped hagree hb₁ ?_
  rw [labelReds_eq hb₁]
  refine useful_of_length length_argsRed ?_
  have hlen := congrArg List.length (hargs'.trans hargs.symm)
  simpa [rewriteBlock, keepFormals] using hlen

end Output

/-- **When the pass is sound**: what it merges is equal in every state reached and its output agrees,
exactly when the formals of every block that handles what a callee raises are told apart. -/
theorem transform_sound_iff {S : Signatures} {τ : Types} {p : Program} {G : List Var}
    (hscoped : p.Scoped G) (hagree : p.Agrees S τ)
    (hruntime : ∀ prim ts ts', S.runtime prim ts ts' → ts'.length ≤ 1) :
    ((∀ (W : World) (globals : Env), (∀ x v, globals x = some v → x ∈ G) →
      ∀ s, p.Reaches W globals s → Merged p s) ∧ (transform p).Agrees S τ) ↔ HandlersApart p := by
  constructor
  · exact fun h => handlersApart_of_agrees hscoped hagree h.2
  · intro h
    refine ⟨fun W globals hglobals s hs => ?_, agrees_transform hscoped hagree h hruntime⟩
    exact merged_equal hscoped hagree h hruntime W hglobals hs

/-! ## A handler that loses a formal -/

section Raised

/-- A callee that raises two words, and a handler for both. -/
def raised : Program where
  functions := [
    { args := [], mayInline := false, name := ⟨0⟩, raises := none, returns := some []
      blocks := [
        { args := [], label := ⟨0⟩, statements := [],
          transfer := .call [] ⟨1⟩ (.nonTail ⟨1⟩ (.handle ⟨2⟩)) },
        { args := [], label := ⟨1⟩, statements := [], transfer := .ret [] },
        { args := [(⟨0⟩, .word 32), (⟨1⟩, .word 32)], label := ⟨2⟩, statements := [],
          transfer := .ret [] }]
      start := ⟨0⟩ },
    { args := [], mayInline := false, name := ⟨1⟩, raises := some [.word 32, .word 32]
      returns := some []
      blocks := [
        { args := [], label := ⟨3⟩
          statements := [
            ⟨some ⟨2⟩, .word 32, .const (.word 32 1)⟩,
            ⟨some ⟨3⟩, .word 32, .const (.word 32 2)⟩]
          transfer := .raise [⟨2⟩, ⟨3⟩] }]
      start := ⟨3⟩ }]
  main := ⟨0⟩

/-- No constructor has arguments, and no primitive goes to the runtime. -/
def noSignatures : Signatures := ⟨fun _ => [], fun _ _ _ => False⟩

/-- All variables are words. -/
def words : Types := fun _ => some (.word 32)

/-- A world that answers nothing. -/
def silent : World := ⟨fun _ _ _ => none, fun _ _ _ _ _ => none, fun _ _ _ => none⟩

theorem scoped_raised : raised.Scoped [] := Program.LocallyScoped.scoped (by decide)

theorem agrees_raised : raised.Agrees noSignatures words := by
  intro f hf
  simp only [raised, List.mem_cons, List.not_mem_nil, or_false] at hf
  obtain rfl | rfl := hf
  · refine ⟨by simp, fun b hb => ?_⟩
    simp only [List.mem_cons, List.not_mem_nil, or_false] at hb
    obtain rfl | rfl | rfl := hb
    · refine ⟨⟨_, rfl, rfl, fun ts hts => ?_, fun ts hts => ?_⟩, by simp⟩
      · exact ⟨_, rfl, Option.some.inj hts⟩
      · exact ⟨_, rfl, Option.some.inj hts⟩
    · exact ⟨⟨[], rfl, rfl⟩, by simp⟩
    · exact ⟨⟨[], rfl, rfl⟩, by simp [words]⟩
  · refine ⟨by simp, fun b hb => ?_⟩
    obtain rfl := List.mem_singleton.mp hb
    exact ⟨⟨[.word 32, .word 32], rfl, rfl⟩, by simp⟩

/-- The second formal of the handler is replaced by the first. -/
example : replacement raised ⟨1⟩ = some ⟨0⟩ := by decide

theorem transform_sound_iff_raised :
    ((∀ (W : World) (globals : Env), (∀ x v, globals x = some v → x ∈ ([] : List Var)) →
      ∀ s, raised.Reaches W globals s → Merged raised s) ∧
        (transform raised).Agrees noSignatures words) ↔ HandlersApart raised :=
  transform_sound_iff scoped_raised agrees_raised fun _ _ _ h => h.elim

/-- The handler starts with two different words for formals that are merged. -/
theorem not_merged_raised : ∃ s, raised.Reaches silent (fun _ => none) s ∧ ¬ Merged raised s := by
  refine ⟨_, .step (.step (.step (.step (.init rfl) rfl) rfl) rfl) rfl, fun h => ?_⟩
  have heq := h.formals _ (List.mem_cons_self ..) ⟨1⟩ ⟨0⟩ (by decide)
  have hword : Val.const (.word 32 2) = .const (.word 32 1) := Option.some.inj heq
  cases hword

/-- The handler of a well formed program gets two different words for formals that are merged, and in
the output it has one formal for the two words that are raised. -/
theorem handler_loses_formal : raised.Scoped [] ∧ raised.Agrees noSignatures words ∧
    (∃ s, raised.Reaches silent (fun _ => none) s ∧ ¬ Merged raised s) ∧
    ¬ (transform raised).Agrees noSignatures words := by
  refine ⟨scoped_raised, agrees_raised, not_merged_raised, fun h => ?_⟩
  obtain ⟨s, hs, hnot⟩ := not_merged_raised
  have happart := handlersApart_of_agrees scoped_raised agrees_raised h
  exact hnot (merged_equal scoped_raised agrees_raised happart (fun _ _ _ h => h.elim) silent
    (fun _ _ h => by cases h) hs)

end Raised

end MLton.Ssa.Redundant
