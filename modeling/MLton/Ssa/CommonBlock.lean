import MLton.Ssa.Detours

/-!
# Ssa/CommonBlock — one block for all that return, raise or pass on a global

A block without statements that only returns, raises or passes on a global goes to a block that does it for all of its
function.  What is known of a global says for which function its blocks are; blocks of other functions are made anew.
The program runs as before (`transform_sameRuns`).
-/

namespace MLton.Ssa.CommonBlock

open MLton.Effects MLton.Simulation

/-! ## The pass -/

/-- `varInfo`: the blocks that were last made for a global, and for which function. -/
structure VarInfo where
  returner : Option (Func × Label)
  raiser : Option (Func × Label)
  gotoers : Option (Func × List (Label × Label))

/-- What is done with the global. -/
inductive Use where
  | goto (dst : Label)
  | raise
  | ret

/-- The transfer that does it. -/
def Use.transfer (x : Var) : Use → Transfer
  | goto dst => .goto dst [x]
  | raise => .raise [x]
  | ret => .ret [x]

/-- What is known for this function. -/
def ofFunc {α : Type} (name : Func) (c : Option (Func × α)) : Option α :=
  c.bind fun known => if name = known.1 then some known.2 else none

/-- The block that was made for this function. -/
def VarInfo.get (name : Func) (info : VarInfo) : Use → Option Label
  | .goto dst => (ofFunc name info.gotoers).bind fun known => (known.find? (·.1 = dst)).map Prod.snd
  | .raise => ofFunc name info.raiser
  | .ret => ofFunc name info.returner

/-- A new block for this function. -/
def VarInfo.install (name : Func) (info : VarInfo) (l : Label) : Use → VarInfo
  | .goto dst => { info with gotoers := some (name, (dst, l) :: (ofFunc name info.gotoers).getD []) }
  | .raise => { info with raiser := some (name, l) }
  | .ret => { info with returner := some (name, l) }

/-- The properties of the variables, the reference `newBlocks`, and the names not used yet. -/
structure Shared where
  varInfo : Var → Option VarInfo
  newBlocks : List Block
  next : ℕ

/-- `common`: `commonReturner`, `commonRaiser` and `commonGotoers`. -/
def common (name : Func) (use : Use) (x : Var) : StateM Shared (Option Label) := fun st =>
  match st.varInfo x with
  | none => (none, st)
  | some info =>
    match info.get name use with
    | some l => (some l, st)
    | none =>
      let l : Label := ⟨st.next⟩
      (some l, { varInfo := Function.update st.varInfo x (some (info.install name l use))
                 newBlocks := ⟨[], l, [], use.transfer x⟩ :: st.newBlocks
                 next := st.next + 1 })

/-- What a transfer does with one variable. -/
def useOf : Transfer → Option (Use × Var)
  | .goto dst [x] => some (.goto dst, x)
  | .raise [x] => some (.raise, x)
  | .ret [x] => some (.ret, x)
  | _ => none

/-- `doit`: the block goes to the other one, if there is one. -/
def doit (b : Block) : Option Label → Block
  | some l => { b with transfer := .goto l [] }
  | none => b

/-- What becomes of a block. -/
def eliminateBlock (name : Func) (b : Block) : StateM Shared Block :=
  if b.statements.isEmpty then
    match useOf b.transfer with
    | some (use, x) => do return doit b (← common name use x)
    | none => pure b
  else pure b

/-- `eliminateFunction`, before it shrinks. -/
def eliminateFunction (f : Function) : StateM Shared Function := fun st =>
  let (blocks, st) := (f.blocks.mapM (eliminateBlock f.name)).run { st with newBlocks := [] }
  ({ f with blocks := st.newBlocks ++ blocks }, st)

/-- What is known of the variables at first. -/
def start (globals : List Var) (n : ℕ) : Shared where
  varInfo x := if x ∈ globals then some ⟨none, none, none⟩ else none
  newBlocks := []
  next := n

/-- `transform`; what shrinks a function is not part of it. -/
def transform (globals : List Var) (n : ℕ) (p : Program) : Program :=
  { p with functions := ((p.functions.mapM eliminateFunction).run (start globals n)).1.reverse }

/-! ## One block -/

section Blocks

open Fold

variable {name name' : Func} {info : VarInfo} {use use' : Use} {l l' : Label} {x : Var} {st st' : Shared} {b b' : Block}

theorem transfer_useOf {tr : Transfer} (h : useOf tr = some (use, x)) : tr = use.transfer x := by
  unfold useOf at h
  split at h <;> cases h <;> rfl

/-- **What is known of this function** is what was, and the new block; nothing new is known of others. -/
theorem get_install (h : (info.install name l use).get name' use' = some l') :
    info.get name' use' = some l' ∨ name' = name ∧ use' = use ∧ l' = l := by
  cases use <;> cases use' <;> simp only [VarInfo.get, VarInfo.install, ofFunc] at h ⊢ <;> try exact .inl h
  all_goals simp only [Option.bind_some] at h
  all_goals split at h <;> rename_i hname
  all_goals first
    | cases h
      done
    | skip
  · subst hname
    simp only [Option.bind_some, List.find?_cons] at h
    split at h
    · next hdst =>
      cases h
      exact .inr ⟨rfl, congrArg _ (of_decide_eq_true hdst).symm, rfl⟩
    · left
      revert h
      cases info.gotoers with
      | none => simp
      | some known =>
        by_cases hk : name' = known.1 <;> simp [hk]
  · cases h
    exact .inr ⟨hname, trivial, rfl⟩
  · cases h
    exact .inr ⟨hname, trivial, rfl⟩

/-- What is known of the function is so. -/
def Known (name : Func) (st : Shared) : Prop :=
  ∀ x info use l, st.varInfo x = some info → info.get name use = some l → ⟨[], l, [], use.transfer x⟩ ∈ st.newBlocks

/-- The block goes to one that does what it did. -/
def Shares (new : List Block) (b b' : Block) : Prop :=
  b' = b ∨ (b.statements = [] ∧ ∃ l, ⟨[], l, [], b.transfer⟩ ∈ new ∧ b' = { b with transfer := .goto l [] })

/-- What becomes of the rest when the state goes on. -/
structure Onward (name : Func) (st st' : Shared) : Prop where
  next : st.next ≤ st'.next
  blocks : ∃ new, st'.newBlocks = new ++ st.newBlocks ∧ new.Pairwise (fun b c => c.label.id < b.label.id) ∧
    ∀ b ∈ new, st.next ≤ b.label.id ∧ b.label.id < st'.next
  others : ∀ name' ≠ name, ∀ x info' use l, st'.varInfo x = some info' → info'.get name' use = some l →
    ∃ info, st.varInfo x = some info ∧ info.get name' use = some l

theorem Onward.refl (name : Func) (st : Shared) : Onward name st st :=
  ⟨le_rfl, ⟨[], rfl, .nil, by simp⟩, fun _ _ _ info _ _ h h' => ⟨info, h, h'⟩⟩

theorem Onward.trans {st'' : Shared} (h : Onward name st st') (h' : Onward name st' st'') : Onward name st st'' := by
  obtain ⟨new, heq, hpair, hnew⟩ := h.blocks
  obtain ⟨new', heq', hpair', hnew'⟩ := h'.blocks
  have hle := h.next
  have hle' := h'.next
  refine ⟨hle.trans hle', ⟨new' ++ new, by rw [heq', heq, List.append_assoc], ?_, fun b hb => ?_⟩, ?_⟩
  · exact List.pairwise_append.mpr ⟨hpair', hpair, fun b hb c hc => (hnew c hc).2.trans_le (hnew' b hb).1⟩
  · obtain hb | hb := List.mem_append.mp hb
    · have := hnew' b hb
      omega
    · have := hnew b hb
      omega
  · intro name' hne x info' use l hinfo' hget'
    obtain ⟨info, hinfo, hget⟩ := h'.others name' hne x info' use l hinfo' hget'
    exact h.others name' hne x info use l hinfo hget

theorem Onward.subset (h : Onward name st st') : st.newBlocks ⊆ st'.newBlocks := by
  obtain ⟨new, heq, -⟩ := h.blocks
  exact fun b hb => heq ▸ List.mem_append_right _ hb

theorem Shares.mono {new new' : List Block} (h : Shares new b b') (hsub : new ⊆ new') : Shares new' b b' :=
  h.imp_right fun h => ⟨h.1, h.2.imp fun _ h => ⟨hsub h.1, h.2⟩⟩

/-- **The block that is found, or made**, does what is asked for. -/
theorem common_spec (hst : Known name st) : Known name (common name use x st).2 ∧ Onward name st (common name use x st).2 ∧
    ∀ l, (common name use x st).1 = some l → ⟨[], l, [], use.transfer x⟩ ∈ (common name use x st).2.newBlocks := by
  unfold common
  split
  · exact ⟨hst, .refl name st, by rintro _ ⟨⟩⟩
  · next info hinfo =>
    split
    · next l hl =>
      refine ⟨hst, .refl name st, fun l' hl' => ?_⟩
      cases hl'
      exact hst x info use l hinfo hl
    · refine ⟨fun y info' use' l' hinfo' hget => ?_, ⟨Nat.le_succ _, ⟨[_], rfl, List.pairwise_singleton _ _, ?_⟩, ?_⟩, ?_⟩
      · by_cases hy : y = x
        · subst hy
          simp only [Function.update_self, Option.some.injEq] at hinfo'
          subst hinfo'
          obtain hold | ⟨-, rfl, rfl⟩ := get_install hget
          · exact List.mem_cons_of_mem _ (hst y info use' l' hinfo hold)
          · exact List.mem_cons_self ..
        · simp only [Function.update_of_ne hy] at hinfo'
          exact List.mem_cons_of_mem _ (hst y info' use' l' hinfo' hget)
      · intro b hb
        obtain rfl := List.mem_singleton.mp hb
        exact ⟨le_rfl, Nat.lt_succ_self _⟩
      · intro name' hne y info' use' l' hinfo' hget
        by_cases hy : y = x
        · subst hy
          simp only [Function.update_self, Option.some.injEq] at hinfo'
          subst hinfo'
          exact ⟨info, hinfo, (get_install hget).resolve_right fun h => hne h.1⟩
        · simp only [Function.update_of_ne hy] at hinfo'
          exact ⟨info', hinfo', hget⟩
      · rintro l' ⟨⟩
        exact List.mem_cons_self ..

theorem eliminateBlock_spec (b : Block) (hst : Known name st) :
    Known name ((eliminateBlock name b).run st).2 ∧ Onward name st ((eliminateBlock name b).run st).2 ∧
      Shares ((eliminateBlock name b).run st).2.newBlocks b ((eliminateBlock name b).run st).1 := by
  have hself : Known name st ∧ Onward name st st ∧ Shares st.newBlocks b b := ⟨hst, .refl name st, .inl rfl⟩
  rw [eliminateBlock]
  split_ifs with hempty
  · split
    · next use x huse =>
      obtain ⟨hknown, honward, hmade⟩ := common_spec hst
      refine ⟨hknown, honward, ?_⟩
      change Shares (common name use x st).2.newBlocks b (doit b (common name use x st).1)
      cases hl : (common name use x st).1 with
      | none => exact .inl rfl
      | some l => exact .inr ⟨List.isEmpty_iff.mp hempty, l, transfer_useOf huse ▸ hmade l hl, rfl⟩
    · exact hself
  · exact hself

end Blocks

/-! ## The rewritten function -/

open Fold

/-- **The rewritten function**: some blocks go to new ones that do what they did. -/
structure Made (lo hi : ℕ) (f f' : Function) : Prop where
  made : ∃ new bs, f' = { f with blocks := new ++ bs } ∧ List.Forall₂ (Shares new) f.blocks bs ∧
    new.Pairwise (fun b c => c.label.id < b.label.id) ∧ ∀ b ∈ new, lo ≤ b.label.id ∧ b.label.id < hi

/-- Nothing is known of these functions. -/
def Unknown (names : List Func) (st : Shared) : Prop :=
  ∀ name ∈ names, ∀ x info use, st.varInfo x = some info → info.get name use = none

theorem made_eliminateFunction {f : Function} {st : Shared} {names : List Func} (hst : Unknown (f.name :: names) st)
    (hname : f.name ∉ names) : Unknown names ((eliminateFunction f).run st).2 ∧
      st.next ≤ ((eliminateFunction f).run st).2.next ∧
      Made st.next ((eliminateFunction f).run st).2.next f ((eliminateFunction f).run st).1 := by
  have hknown : Known f.name { st with newBlocks := [] } := fun x info use l hinfo hget => by
    rw [hst f.name (List.mem_cons_self ..) x info use hinfo] at hget
    cases hget
  have hblocks : Threaded (fun st b b' st' => Known f.name st → Known f.name st' ∧ Onward f.name st st' ∧
      Shares st'.newBlocks b b') { st with newBlocks := [] } f.blocks
      ((f.blocks.mapM (eliminateBlock f.name)).run { st with newBlocks := [] }).1
      ((f.blocks.mapM (eliminateBlock f.name)).run { st with newBlocks := [] }).2 :=
    .of_mapM fun b _ st hst => eliminateBlock_spec b hst
  change Unknown names ((f.blocks.mapM (eliminateBlock f.name)).run { st with newBlocks := [] } : Id _).2 ∧
    st.next ≤ ((f.blocks.mapM (eliminateBlock f.name)).run { st with newBlocks := [] } : Id _).2.next ∧
    Made st.next ((f.blocks.mapM (eliminateBlock f.name)).run { st with newBlocks := [] } : Id _).2.next f
      { f with blocks := ((f.blocks.mapM (eliminateBlock f.name)).run { st with newBlocks := [] } : Id _).2.newBlocks ++
        ((f.blocks.mapM (eliminateBlock f.name)).run { st with newBlocks := [] } : Id _).1 }
  generalize ((f.blocks.mapM (eliminateBlock f.name)).run { st with newBlocks := [] }).1 = bs at hblocks ⊢
  generalize ((f.blocks.mapM (eliminateBlock f.name)).run { st with newBlocks := [] }).2 = st' at hblocks ⊢
  obtain ⟨-, honward, hall⟩ := hblocks.forall₂ (Q := Known f.name) (T := Onward f.name) (Onward.refl f.name)
    (fun h h' => h.trans h') (fun hQ h => ⟨(h hQ).1, (h hQ).2.1⟩) hknown
  obtain ⟨new, hnew, hpair, hbound⟩ := honward.blocks
  rw [List.append_nil] at hnew
  refine ⟨fun name hmem x info' use hinfo' => ?_, honward.next, st'.newBlocks, bs, rfl, hall.imp ?_, hnew ▸ hpair, hnew ▸ hbound⟩
  · refine Option.eq_none_iff_forall_ne_some.mpr fun l hget => ?_
    obtain ⟨info, hinfo, hget⟩ := honward.others name (fun heq => hname (heq ▸ hmem)) x info' use l hinfo' hget
    rw [hst name (List.mem_cons_of_mem _ hmem) x info use hinfo] at hget
    cases hget
  · rintro b b' ⟨s₁, s₂, -, hQ, h, hs'⟩
    exact (h hQ).2.2.mono hs'.subset

theorem drawn_transform : ∀ {fs : List Function} {st : Shared}, (fs.map Function.name).Nodup →
    Unknown (fs.map Function.name) st →
      ∃ hi, Drawn Made st.next fs ((fs.mapM eliminateFunction).run st).1 hi
  | [], st, _, _ => ⟨_, .nil _⟩
  | f :: fs, st, hnodup, hst => by
    obtain ⟨hname, hnodup⟩ := List.nodup_cons.mp hnodup
    obtain ⟨hst', hle, hmade⟩ := made_eliminateFunction hst hname
    obtain ⟨hi, hrest⟩ := drawn_transform hnodup hst'
    rw [List.mapM_cons]
    exact ⟨hi, .cons hle hmade hrest⟩

section Function

variable {lo hi : ℕ} {f f' : Function} {l : Label} {b : Block}

theorem Made.same (h : Made lo hi f f') : f'.name = f.name ∧ f'.args = f.args ∧ f'.start = f.start := by
  obtain ⟨new, bs, rfl, -⟩ := h.made
  exact ⟨rfl, rfl, rfl⟩

theorem Shares.label {new : List Block} {b b' : Block} : Shares new b b' → b'.label = b.label := by
  rintro (rfl | ⟨-, l', -, rfl⟩) <;> rfl

theorem labels_shares {new bs bs' : List Block} (h : List.Forall₂ (Shares new) bs bs') :
    bs'.map Block.label = bs.map Block.label := by
  induction h with
  | nil => rfl
  | cons hb _ ih => rw [List.map_cons, List.map_cons, hb.label, ih]

/-- The blocks of the rewritten function. -/
theorem Made.block? (h : Made lo hi f f') (hf : (f.blocks.map Block.label).Nodup)
    (hlo : ∀ l ∈ f.blocks.map Block.label, l.id < lo) (hb : f.block? l = some b) :
    ∃ b', f'.block? l = some b' ∧ b'.args = b.args ∧ b'.statements = b.statements ∧ (b'.transfer = b.transfer ∨
      b.statements = [] ∧ ∃ l', f'.block? l' = some ⟨[], l', [], b.transfer⟩ ∧ b'.transfer = .goto l' []) := by
  obtain ⟨new, bs, rfl, hall, hpair, hnew⟩ := h.made
  have hlabels := labels_shares hall
  have hnodup : ((new ++ bs).map Block.label).Nodup := by
    rw [List.map_append, hlabels]
    refine List.nodup_append'.mpr ⟨?_, hf, fun l hl hl' => ?_⟩
    · exact List.pairwise_map.mpr (hpair.imp fun hlt heq => absurd (congrArg Label.id heq) hlt.ne')
    · obtain ⟨c, hc, rfl⟩ := List.mem_map.mp hl
      exact absurd (hlo _ hl') (not_lt.mpr (hnew c hc).1)
  obtain ⟨b', hb', hshares⟩ := Fold.exists_of_mem_left hall (Function.block?_mem hb)
  refine ⟨b', ?_, ?_⟩
  · rw [← Function.block?_label hb, ← hshares.label]
    exact Fold.find?_key hnodup b' (List.mem_append_right _ hb')
  · obtain rfl | ⟨hempty, l', hl', rfl⟩ := hshares
    · exact ⟨rfl, rfl, .inl rfl⟩
    · exact ⟨rfl, rfl, .inr ⟨hempty, l', Fold.find?_key hnodup _ (List.mem_append_left _ hl'), rfl⟩⟩

end Function

/-! ## The rewritten program -/

section Programs

variable {W : World} {G : Env} {globals : List Var} {n : ℕ} {p : Program}

/-- **The pass redirects transfers.** -/
theorem redirects (hscoped : p.Scoped globals) (hnamed : p.Named globals n) :
    Redirects W p (transform globals n p) G globals fun f f' => ∃ lo hi, n ≤ lo ∧ Made lo hi f f' := by
  obtain ⟨hi, hdrawn⟩ := drawn_transform hscoped.names (show Unknown _ (start globals n) by
    intro name _ x info use hinfo
    obtain rfl := Option.some.inj (Option.ite_none_right_eq_some.mp hinfo).2
    cases use <;> rfl)
  have hblock : ∀ {f f' l b}, f ∈ p.functions → (∃ lo hi, n ≤ lo ∧ Made lo hi f f') → f.block? l = some b →
      ∃ b', f'.block? l = some b' ∧ b'.args = b.args ∧ b'.statements = b.statements ∧ (b'.transfer = b.transfer ∨
        b.statements = [] ∧ ∃ l', f'.block? l' = some ⟨[], l', [], b.transfer⟩ ∧ b'.transfer = .goto l' []) := by
    rintro f f' l b hf ⟨lo, hi, hlo, hmade⟩ hb
    exact hmade.block? (hscoped.functions f hf).labels (fun l hl => (hnamed.labels f hf l hl).trans_le hlo) hb
  have hfunctions := hscoped.rel_function? hdrawn (fun h => h.same.1) (show (transform globals n p).functions = _ from rfl)
  have hcounter : Counterparts W p (transform globals n p) G globals fun f f' => ∃ lo hi, n ≤ lo ∧ Made lo hi f f' :=
    { main := rfl
      functions := hfunctions p.main
      activate := by
        rintro f f' - ⟨lo, hi, hlo, hmade⟩ vs
        exact .of_rel (Frame.Alike.activate ⟨lo, hi, hlo, hmade⟩ hmade.same.2.1 hmade.same.2.2 vs)
      block := fun hf hR _ hb => (hblock hf hR hb).imp fun _ h => ⟨h.1, h.2.1, h.2.2.1⟩ }
  refine ⟨hcounter, fun {fr fr' tr} hF hglobal hat => ?_⟩
  have hfr := hglobal.toDefined
  obtain ⟨b, hb, hnone, htr⟩ := id hat
  obtain ⟨b', hb', -, hss, htransfer⟩ := hblock hfr.func hF.func hb
  have hcalls : ∀ args func k, tr = .call args func k → _ := fun _ func _ _ => hfunctions func
  have hat' : fr'.At b'.transfer := ⟨b', hF.label ▸ hb', by rw [hss, hF.index]; exact hnone, rfl⟩
  obtain heq | ⟨-, l', hl', hgoto⟩ := htransfer
  · -- the old transfer is where it was, or in a new block
    exact ⟨fr', tr, .refl, by rw [← htr, ← heq]; exact hat', hcounter.takes hscoped hF.func hF.env hfr hat hcalls⟩
  · rw [hgoto] at hat'
    refine ⟨⟨fr'.func, l', 0, fr'.env⟩, tr, .single (Frame.quiet_of_goes hat' rfl ?_), ⟨_, hl', rfl, htr⟩,
      hcounter.takes hscoped hF.func hF.env hfr hat hcalls⟩
    change (fr'.env.all []).bind (fr'.enter l') = _
    rw [Env.all_nil, Option.bind_some, Frame.enter, hl']
    rfl

/-- **The pass keeps the runs of the program.** -/
theorem transform_sameRuns (hscoped : p.Scoped globals) (hnamed : p.Named globals n)
    (hG : ∀ x ∈ globals, ∃ v, G x = some v) : p.SameRuns W G (transform globals n p) :=
  (redirects hscoped hnamed).sameRuns hscoped hG

/-- Two blocks return the global, and then a third. -/
theorem transform_sameRuns_sample :
    (transform [⟨0⟩] 5 sample).functions.map (fun f => f.blocks.map fun b => (b.label.id, b.transfer.labels)) =
      [[(5, []), (0, [⟨1⟩, ⟨2⟩, ⟨3⟩]), (1, [⟨2⟩]), (2, []), (3, [⟨5⟩]), (4, [⟨5⟩])]] ∧
    sample.SameRuns .idle sampleEnv (transform [⟨0⟩] 5 sample) :=
  ⟨by decide, transform_sameRuns scoped_sample named_sample bound_sample⟩

end Programs

end MLton.Ssa.CommonBlock
