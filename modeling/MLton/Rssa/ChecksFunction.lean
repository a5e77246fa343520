import MLton.Rssa.ChecksInserted

/-!
# Rssa/ChecksFunction — a function whose blocks are guarded

The blocks are done one after the other, each with labels of its own, so that what is known of one block is not
touched by the others.

* `Guarded` — what the checks of a block are for;
* `Meets` — the amounts for which they do it;
* `insertFunction_guards` — they do it for these amounts, and for no others.
-/

namespace MLton.Rssa.InsertChecks

variable {code : Label → Option Block} {Body : Label → Prop} {I : Inserting} {needs : Needs} {w : ℕ} {d l : Label}

/-! ## Guarded blocks -/

/-- **The checks guard a block** that control enters in `σ`: its statements, at `body`, are reached in good states
only, and if the bytes needed are no word then control goes to `heapCheckTooLarge`. -/
structure Guarded (code : Label → Option Block) (Body : Label → Prop) (vars : ℕ) (stack signal : Bool)
    (label body : Label) (amount : ℕ) (allocated : BytesAllocated) (σ : Machine w) : Prop where
  reached : Leads code Body body (Good vars (amount + dynamicBytes allocated σ) stack signal σ) label σ
  tooLarge : 2 ^ w ≤ amount + dynamicBytes allocated σ →
    ¬ Body label ∧ (∃ c, Step code Body (label, σ) c) ∧ ∀ c, Step code Body (label, σ) c → TooLarge code Body c.1

/-- The amount fits, or what is left of it overflows together with the bytes of the transfer. -/
def Meets (amount : ℕ) (allocated : BytesAllocated) (σ : Machine w) : Prop :=
  amount < 2 ^ w ∨ SumOverflows amount allocated σ

/-- `MLton_heapCheckTooLarge` does not return. -/
theorem leads_tooLarge {Q : Machine w → Prop} {σ : Machine w} (h : TooLarge code Body l) : Leads code Body d Q l σ := by
  obtain ⟨hl, b, hb, hstmts, htr⟩ := h
  refine leads_of_step hl fun c hc => ?_
  obtain ⟨-, b', ρ, hb', -, hgo⟩ := hc
  obtain rfl := Option.some.inj (hb.symm.trans hb')
  rw [htr] at hgo
  cases hgo

/-- A sum that does not overflow is a word. -/
theorem required_lt {amount : ℕ} {allocated : BytesAllocated} {σ : Machine w} (hfit : amount < 2 ^ w)
    (hsum : ¬ SumOverflows amount allocated σ) : amount + dynamicBytes allocated σ < 2 ^ w := by
  cases allocated with
  | static => exact hfit
  | dynamic oper =>
    have hmod := Nat.mod_eq_of_lt hfit
    have hlt := (σ.value oper).isLt
    change amount + (σ.value oper).toNat < 2 ^ w
    by_contra hge
    exact hsum ⟨by omega, by omega⟩

/-- **A block is guarded if and only if its amount meets the condition.** -/
theorem EntryFacts.guarded_iff {vars amount : ℕ} {c : Checked} {label body : Label} {allocated : BytesAllocated}
    (h : EntryFacts code Body vars c label amount allocated body w) {σ : Machine w} (hok : σ.Ok) :
    Guarded code Body vars c.needsStackCheck c.needsSignalCheck label body amount allocated σ ↔
      Meets amount allocated σ := by
  by_cases hsum : SumOverflows amount allocated σ
  · refine iff_of_true ⟨?_, fun _ => h.tooLarge σ hok hsum⟩ (.inr hsum)
    obtain ⟨hlabel, -, hall⟩ := h.tooLarge σ hok hsum
    exact leads_of_step hlabel fun c hc => leads_tooLarge (hall c hc)
  · constructor
    · intro hguard
      by_contra hno
      have hbig : 2 ^ w ≤ amount := not_lt.mp fun hlt => hno (.inl hlt)
      obtain ⟨c, hstep, hnot⟩ := h.checks σ hok hbig hsum
      exact hnot ((hguard.tooLarge (hbig.trans (Nat.le_add_right _ _))).2.2 c hstep)
    · intro hmeets
      have hfit := hmeets.resolve_right hsum
      exact ⟨h.leads σ hok hfit hsum, fun hbig => absurd hbig (not_le.mpr (required_lt hfit hsum))⟩

/-! ## The blocks one after the other -/

/-- The transfer that a block is left with, and what it asks for. -/
def requestOf (I : Inserting) (needs : Needs) (b : Block) : Option (Transfer × BytesAllocated) := do
  let transfer ← ensureBytesFree I.ctl needs.ensureFree b.transfer
  let allocated ← transferBytesAllocated transfer
  return (transfer, allocated)

/-- What the checks of a block are made from. -/
def checkedOf (needs : Needs) (start : Label) (b : Block) (transfer : Transfer) : Checked :=
  ⟨b.statements, transfer, decide (start = b.label), needs.needsSignalCheck b.label⟩

theorem insertBlock_eq_some {start : Label} {st st' : InsertState × List (Label × Label)} {b : Block}
    (h : insertBlock I needs start st b = some st') :
    ∃ t a, requestOf I needs b = some (t, a) ∧
      let r := entryOf I (checkedOf needs start b t) b.label (needs.blockLimitCheckAmount b.label) a st.1
      st' = ({ r.2 with
                newBlocks := { b with statements := r.1.statements, transfer := r.1.transfer } :: r.2.newBlocks },
              (b.label, r.1.body) :: st.2) := by
  simp only [insertBlock, Option.bind_eq_bind, Option.bind_eq_some_iff] at h
  obtain ⟨t, ht, a, ha, h⟩ := h
  refine ⟨t, a, by simp [requestOf, ht, ha], ?_⟩
  exact (Option.some.inj h).symm

/-- The labels under which the statements of blocks are. -/
def IsBody (bodies : List (Label × Label)) (l : Label) : Prop := ∃ l₀, (l₀, l) ∈ bodies

/-- **What is known of a block that is done**, later on. -/
def BlockDone (I : Inserting) (needs : Needs) (start : Label) (labels vars : ℕ) (st : InsertState × List (Label × Label))
    (b : Block) : Prop :=
  ∃ t a s₀ e s₁, requestOf I needs b = some (t, a) ∧
    EntrySpec I (checkedOf needs start b t) b.label (needs.blockLimitCheckAmount b.label) a s₀ e s₁ ∧
    labels ≤ s₀.labels ∧ vars ≤ s₀.vars ∧ s₁.labels ≤ st.1.labels ∧ (∀ x ∈ s₁.newBlocks, x ∈ st.1.newBlocks) ∧
    (∀ l, s₁.tooLarge = some l → st.1.tooLarge = some l) ∧
    { b with statements := e.statements, transfer := e.transfer } ∈ st.1.newBlocks ∧ (b.label, e.body) ∈ st.2 ∧
    Only (IsBody st.2) e.body s₀.labels s₁.labels

/-- The invariant of the blocks done. -/
structure Doing (I : Inserting) (needs : Needs) (start : Label) (labels vars : ℕ) (done : List Block)
    (st : InsertState × List (Label × Label)) : Prop where
  labels_le : labels ≤ st.1.labels
  vars_le : vars ≤ st.1.vars
  perm : (st.1.newBlocks.map Block.label).Perm
    (done.map Block.label ++ (List.range' labels (st.1.labels - labels)).map Label.mk)
  tooLargeOk : TooLargeOk st.1
  tooLarge : ∀ l, st.1.tooLarge = some l → labels ≤ l.id ∧ l.id < st.1.labels ∧ ¬ IsBody st.2 l
  keys : st.2.map Prod.fst = (done.map Block.label).reverse
  bodies : ∀ p ∈ st.2, p.2 = p.1 ∨ (labels ≤ p.2.id ∧ p.2.id < st.1.labels)
  done : ∀ b ∈ done, BlockDone I needs start labels vars st b

variable {start : Label} {labels vars : ℕ}

/-- A body is an old label, or one of the new ones. -/
theorem Doing.body_id {done : List Block} {st : InsertState × List (Label × Label)}
    (h : Doing I needs start labels vars done st) (hdone : ∀ b ∈ done, b.label.id < labels) (hb : IsBody st.2 l) :
    l.id < st.1.labels := by
  obtain ⟨l₀, hmem⟩ := hb
  obtain heq | hlt := h.bodies _ hmem
  · have hkey : l₀ ∈ st.2.map Prod.fst := List.mem_map_of_mem hmem
    rw [h.keys, List.mem_reverse] at hkey
    obtain ⟨b, hb, rfl⟩ := List.mem_map.mp hkey
    rw [show l = b.label from heq]
    exact (hdone b hb).trans_le h.labels_le
  · exact hlt.2

/-- **One block.** -/
theorem Doing.step {done : List Block} {st st' : InsertState × List (Label × Label)} {b : Block}
    (h : Doing I needs start labels vars done st) (hdone : ∀ b' ∈ done, b'.label.id < labels)
    (hb : b.label.id < labels) (hst : insertBlock I needs start st b = some st') :
    Doing I needs start labels vars (done ++ [b]) st' := by
  obtain ⟨t, a, hreq, heq⟩ := insertBlock_eq_some hst
  have hspec := entryOf_spec h.tooLargeOk (I := I) (checkedOf needs start b t) b.label
    (needs.blockLimitCheckAmount b.label) a (hb.trans_le h.labels_le)
  generalize entryOf I (checkedOf needs start b t) b.label (needs.blockLimitCheckAmount b.label) a st.1 = r at *
  obtain ⟨e, s₁⟩ := r
  dsimp only at heq hspec
  subst heq
  have hle := h.labels_le
  have hgrow := hspec.grow.labels
  have hbody_new : e.body = b.label ∨ (st.1.labels ≤ e.body.id ∧ e.body.id < s₁.labels) := by
    obtain h' | h' := hspec.body
    · exact .inl h'.1
    · exact .inr ⟨h'.1, h'.2.1⟩
  refine ⟨hle.trans hgrow, h.vars_le.trans hspec.grow.vars, ?_, fun l hl => ?_, fun l hl => ?_, ?_, fun p hp => ?_,
    fun b' hb' => ?_⟩
  · obtain ⟨bs, hbs, hperm⟩ := hspec.grow.blocks
    have hrange : List.range' labels (s₁.labels - labels) =
        List.range' labels (st.1.labels - labels) ++ List.range' st.1.labels (s₁.labels - st.1.labels) := by
      have := List.range'_append_1 (s := labels) (m := st.1.labels - labels) (n := s₁.labels - st.1.labels)
      rw [show labels + (st.1.labels - labels) = st.1.labels by omega,
        show st.1.labels - labels + (s₁.labels - st.1.labels) = s₁.labels - labels by omega] at this
      exact this.symm
    dsimp only
    rw [hbs, hrange]
    simp only [List.map_cons, List.map_append, List.map_nil]
    have hold := hperm.append h.perm
    refine (List.Perm.cons b.label hold).trans ?_
    rw [List.perm_iff_count]
    intro x
    simp only [List.count_cons, List.count_append, List.count_nil]
    omega
  · obtain ⟨x, hx, hrest⟩ := hspec.tooLargeOk l hl
    exact ⟨x, List.mem_cons_of_mem _ hx, hrest⟩
  · dsimp only at hl ⊢
    have hold : ∀ l₀, (l₀, l) ∈ st.2 → IsBody st.2 l := fun l₀ hmem => ⟨l₀, hmem⟩
    obtain hl | ⟨-, hlo, hhi, hne⟩ := hspec.tooLarge l hl
    · obtain ⟨hlo, hhi, hnot⟩ := h.tooLarge l hl
      refine ⟨hlo, hhi.trans_le hgrow, ?_⟩
      rintro ⟨l₀, hmem⟩
      obtain heq | hmem := List.mem_cons.mp hmem
      · simp only [Prod.mk.injEq] at heq
        obtain ⟨-, rfl⟩ := heq
        obtain h' | h' := hbody_new
        · rw [h'] at hlo
          omega
        · omega
      · exact hnot (hold l₀ hmem)
    · refine ⟨hle.trans hlo, hhi, ?_⟩
      rintro ⟨l₀, hmem⟩
      obtain heq | hmem := List.mem_cons.mp hmem
      · simp only [Prod.mk.injEq] at heq
        exact hne heq.2
      · have := h.body_id hdone (hold l₀ hmem)
        omega
  · simp [h.keys]
  · obtain rfl | hp := List.mem_cons.mp hp
    · exact hbody_new.imp id fun h' => ⟨hle.trans h'.1, h'.2⟩
    · exact (h.bodies p hp).imp id fun h' => ⟨h'.1, h'.2.trans_le hgrow⟩
  · obtain hb' | hb' := List.mem_append.mp hb'
    · obtain ⟨t', a', s₀', e', s₁', hreq', hspec', hle', hvars', hlabels', hblocks', htl', hentry', hbody', honly'⟩ :=
        h.done b' hb'
      refine ⟨t', a', s₀', e', s₁', hreq', hspec', hle', hvars', hlabels'.trans hgrow, fun x hx => ?_,
        fun l hl => hspec.tooLarge_keep l (htl' l hl), List.mem_cons_of_mem _ (hspec.grow.mem hentry'),
        List.mem_cons_of_mem _ hbody', fun l hlo hhi hl => ?_⟩
      · exact List.mem_cons_of_mem _ (hspec.grow.mem (hblocks' x hx))
      · obtain ⟨l₀, hmem⟩ := hl
        obtain heq | hmem := List.mem_cons.mp hmem
        · simp only [Prod.mk.injEq] at heq
          obtain ⟨-, rfl⟩ := heq
          obtain h' | h' := hbody_new
          · rw [h'] at hlo
            omega
          · omega
        · exact honly' l hlo hhi ⟨l₀, hmem⟩
    · obtain rfl := List.mem_singleton.mp hb'
      refine ⟨t, a, st.1, e, s₁, hreq, hspec, hle, h.vars_le, le_rfl, fun x hx => List.mem_cons_of_mem _ hx, fun _ => id,
        List.mem_cons_self .., List.mem_cons_self .., fun l hlo hhi hl => ?_⟩
      obtain ⟨l₀, hmem⟩ := hl
      obtain heq | hmem := List.mem_cons.mp hmem
      · simp only [Prod.mk.injEq] at heq
        exact heq.2
      · have := h.body_id hdone ⟨l₀, hmem⟩
        omega

theorem doing_nil (I : Inserting) (needs : Needs) (start : Label) (labels vars : ℕ) :
    Doing I needs start labels vars [] (⟨[], none, 0, labels, vars⟩, []) :=
  ⟨le_rfl, le_rfl, by simp, fun _ h => (nomatch h), fun _ h => (nomatch h), rfl, by simp, by simp⟩

/-- **All blocks.** -/
theorem doing_insertFunction {f : Function} {r : Inserted} (hlabels : ∀ b ∈ f.blocks, b.label.id < labels)
    (h : insertFunction I needs labels vars f = some r) :
    ∃ s, r = ⟨{ f with blocks := s.newBlocks }, r.bodies, s.labels⟩ ∧
      Doing I needs f.start labels vars f.blocks (s, r.bodies) := by
  simp only [insertFunction, Option.bind_eq_bind, Option.bind_eq_some_iff] at h
  obtain ⟨⟨s, bodies⟩, hfold, h⟩ := h
  obtain rfl := (Option.some.inj h).symm
  refine ⟨s, rfl, ?_⟩
  have hmem : ∀ {d : List Block} {b : Block}, d ++ [b] <+: f.blocks → ∀ b' ∈ d ++ [b], b'.label.id < labels :=
    fun hpre b' hb' => hlabels b' (hpre.subset hb')
  refine Fold.foldlM_done (d := []) (fun st st' d b hpre hst hd => ?_) hfold (doing_nil I needs f.start labels vars)
  exact hd.step (fun b' hb' => hmem hpre b' (List.mem_append_left _ hb')) (hmem hpre b (by simp)) hst

/-! ## Runs -/

/-- A run of the function: control enters blocks in states with `Enter`, whatever the statements of the blocks
before have done, and goes through the checks. -/
inductive Run (code : Label → Option Block) (Body : Label → Prop) (Enter : Label → Machine w → Prop) :
    Label × Machine w → Prop
  | start {l : Label} {σ : Machine w} (h : Enter l σ) : Run code Body Enter (l, σ)
  | check {c c' : Label × Machine w} (hc : Run code Body Enter c) (h : Step code Body c c') : Run code Body Enter c'
  | leave {c : Label × Machine w} {l : Label} {σ : Machine w} (hc : Run code Body Enter c) (hb : Body c.1)
      (h : Enter l σ) : Run code Body Enter (l, σ)

/-- What a run has reached, it has reached from a block it entered. -/
theorem Run.reach {Enter : Label → Machine w → Prop} {c : Label × Machine w} (h : Run code Body Enter c) :
    ∃ l σ, Run code Body Enter (l, σ) ∧ Enter l σ ∧ Reach code Body (l, σ) c := by
  induction h with
  | start h => exact ⟨_, _, .start h, h, .refl⟩
  | check _ hstep ih =>
    obtain ⟨l, σ, hrun, henter, hreach⟩ := ih
    exact ⟨l, σ, hrun, henter, hreach.tail hstep⟩
  | leave hc hb h _ => exact ⟨_, _, .leave hc hb h, h, .refl⟩

/-- What a transfer asks for at run time is one of its arguments. -/
theorem mem_args_of_dynamic {t : Transfer} {oper : Operand} (h : transferBytesAllocated t = some (.dynamic oper)) :
    ∃ args func ret, t = .ccall args func ret ∧ oper ∈ args ∧ ∀ c, oper ≠ .const c := by
  cases t with
  | ccall args func ret =>
    simp only [transferBytesAllocated] at h
    cases hi : func.bytesNeeded with
    | none => simp [hi] at h
    | some i =>
      rw [hi] at h
      dsimp only at h
      split at h
      · cases h
      · cases h
      · cases h
      · rename_i arg _ hconst harg
        obtain rfl : arg = oper := by simpa using h
        exact ⟨args, func, ret, rfl, List.mem_of_getElem? harg, hconst⟩
  | _ => simp [transferBytesAllocated] at h

/-- The transfer uses no variable but those of the old one. -/
theorem requestOf_vars {b : Block} {t : Transfer} {oper : Operand} (h : requestOf I needs b = some (t, .dynamic oper)) :
    ∀ x ∈ oper.vars, x ∈ b.transfer.uses := by
  simp only [requestOf, Option.bind_eq_bind, Option.bind_eq_some_iff] at h
  obtain ⟨t', ht, a, ha, h⟩ := h
  obtain ⟨rfl, rfl⟩ : t' = t ∧ a = .dynamic oper := by simpa using h
  obtain ⟨args, func, ret, rfl, hmem, hconst⟩ := mem_args_of_dynamic ha
  intro x hx
  generalize b.transfer = t at ht ⊢
  cases t with
  | ccall args₀ func₀ ret₀ =>
    have hmem₀ : oper ∈ args₀ := by
      simp only [ensureBytesFree] at ht
      split at ht
      · simp only [Option.some.injEq, Transfer.ccall.injEq] at ht
        exact ht.1 ▸ hmem
      · split at ht
        · obtain ⟨l, -, heq⟩ := Option.map_eq_some_iff.mp ht
          simp only [Transfer.ccall.injEq] at heq
          rw [← heq.1] at hmem
          exact (List.mem_or_eq_of_mem_set hmem).resolve_right (hconst _)
        · simp only [Option.some.injEq, Transfer.ccall.injEq] at ht
          exact ht.1 ▸ hmem
    exact List.mem_flatMap.mpr ⟨oper, hmem₀, hx⟩
  | _ => simp [ensureBytesFree] at ht

/-! ## The function -/

/-- Control enters a block whose amount meets the condition. -/
def Enters (I : Inserting) (needs : Needs) (f : Function) (l : Label) (σ : Machine I.ctl.csize) : Prop :=
  ∃ b ∈ f.blocks, b.label = l ∧ σ.Ok ∧
    ∃ t a, requestOf I needs b = some (t, a) ∧ Meets (needs.blockLimitCheckAmount b.label) a σ

/-- **What `insertFunction` does for a block**: its statements and its transfer are under a label of its own, and
the checks guard them if and only if the amount meets the condition. -/
structure BlockGuarded (I : Inserting) (needs : Needs) (vars : ℕ) (f : Function) (r : Inserted) (b : Block)
    (body : Label) (t : Transfer) (a : BytesAllocated) : Prop where
  request : requestOf I needs b = some (t, a)
  mem : (b.label, body) ∈ r.bodies
  statements : ∃ b' ∈ r.function.blocks, b'.label = body ∧ b'.statements = b.statements ∧ b'.transfer = t
  guarded : ∀ σ : Machine I.ctl.csize, σ.Ok →
    (Guarded r.function.block? (IsBody r.bodies) vars (decide (f.start = b.label)) (needs.needsSignalCheck b.label)
      b.label body (needs.blockLimitCheckAmount b.label) a σ ↔ Meets (needs.blockLimitCheckAmount b.label) a σ)

section Main

variable {f : Function} {r : Inserted} (hnodup : (f.blocks.map Block.label).Nodup)
  (hlabels : ∀ b ∈ f.blocks, b.label.id < labels) (hvars : ∀ b ∈ f.blocks, ∀ x ∈ b.transfer.uses, x.id < vars)
  (h : insertFunction I needs labels vars f = some r)
include hnodup hlabels h

/-- Every label has exactly one block. -/
theorem insertFunction_labels : (r.function.blocks.map Block.label).Perm
    (f.blocks.map Block.label ++ (List.range' labels (r.labels - labels)).map Label.mk) ∧
      (r.function.blocks.map Block.label).Nodup := by
  obtain ⟨s, hr, hdoing⟩ := doing_insertFunction hlabels h
  have hperm := hdoing.perm
  rw [hr]
  refine ⟨hperm, hperm.nodup_iff.mpr (List.nodup_append.mpr ⟨hnodup, ?_, ?_⟩)⟩
  · exact (List.nodup_range' ..).map fun i j hij => congrArg Label.id hij
  · rintro l hl l' hl' rfl
    obtain ⟨b, hb, rfl⟩ := List.mem_map.mp hl
    obtain ⟨i, hi, heq⟩ := List.mem_map.mp hl'
    have hlt := hlabels b hb
    have hle := (List.mem_range'_1.mp hi).1
    rw [← heq] at hlt
    simp only at hlt
    omega

include hvars

theorem insertFunction_block {b : Block} (hb : b ∈ f.blocks) : ∃ body t a, BlockGuarded I needs vars f r b body t a := by
  obtain ⟨-, hnodup'⟩ := insertFunction_labels hnodup hlabels h
  obtain ⟨s, hr, hdoing⟩ := doing_insertFunction hlabels h
  have hblocks : r.function.blocks = s.newBlocks := by rw [hr]
  obtain ⟨t, a, s₀, e, s₁, hreq, hspec, -, hv, -, hsub, htl, hentry, hbody, honly⟩ := hdoing.done b hb
  have hcode : Holds r.function.block? s := fun x hx => Fold.find?_key hnodup' x (hblocks ▸ hx)
  have hown : IsBody r.bodies b.label → b.label = e.body := by
    rintro ⟨l₀, hmem⟩
    have hkeys : (r.bodies.map Prod.fst).Nodup := by
      rw [show r.bodies.map Prod.fst = _ from hdoing.keys, List.nodup_reverse]
      exact hnodup
    obtain heq | hlt := hdoing.bodies _ hmem
    · obtain rfl : b.label = l₀ := heq
      have := List.inj_on_of_nodup_map hkeys hmem hbody rfl
      exact congrArg Prod.snd this
    · have := hlabels b hb
      have := hlt.1
      dsimp only at this
      omega
  have hfacts := hspec.facts r.function.block? (IsBody r.bodies) _ (fun x hx => hcode x (hsub x hx)) (hcode { b with statements := e.statements, transfer := e.transfer } hentry)
    rfl rfl ⟨_, hbody⟩ honly hown (fun l hl => (hdoing.tooLarge l (htl l hl)).2.2) vars hv
    fun oper ha x hx => hvars b hb x (requestOf_vars (ha ▸ hreq) x hx)
  refine ⟨e.body, t, a, hreq, hbody, ?_, fun σ hok => hfacts.guarded_iff hok⟩
  rw [hblocks]
  obtain ⟨hsame, hstmts, htr⟩ | ⟨-, -, hmem⟩ := hspec.body
  · exact ⟨_, hentry, hsame.symm, hstmts, htr⟩
  · exact ⟨_, hsub _ hmem, rfl, rfl, rfl⟩

/-- **The checks guard every block**: every label has exactly one block, the checks of a block do what they are for
if and only if its amount meets the condition, and in every run that enters blocks so, the statements of blocks are
reached in good states. -/
theorem insertFunction_guards :
    (r.function.blocks.map Block.label).Perm
      (f.blocks.map Block.label ++ (List.range' labels (r.labels - labels)).map Label.mk) ∧
    (r.function.blocks.map Block.label).Nodup ∧
    (∀ b ∈ f.blocks, ∃ body t a, BlockGuarded I needs vars f r b body t a) ∧
    ∀ c : Label × Machine I.ctl.csize, Run r.function.block? (IsBody r.bodies) (Enters I needs f) c →
      IsBody r.bodies c.1 → ∃ b ∈ f.blocks, ∃ t a, requestOf I needs b = some (t, a) ∧ (b.label, c.1) ∈ r.bodies ∧
        ∃ σ : Machine I.ctl.csize, Run r.function.block? (IsBody r.bodies) (Enters I needs f) (b.label, σ) ∧
          Reach r.function.block? (IsBody r.bodies) (b.label, σ) c ∧
          Good vars (needs.blockLimitCheckAmount b.label + dynamicBytes a σ)
            (decide (f.start = b.label)) (needs.needsSignalCheck b.label) σ c.2 := by
  obtain ⟨hperm, hnodup'⟩ := insertFunction_labels hnodup hlabels h
  refine ⟨hperm, hnodup', fun b hb => insertFunction_block hnodup hlabels hvars h hb, fun c hc hbody => ?_⟩
  obtain ⟨l, σ, hrun, ⟨b, hb, rfl, hok, t, a, hreq, hmeets⟩, hreach⟩ := hc.reach
  obtain ⟨body, t', a', hguarded⟩ := insertFunction_block hnodup hlabels hvars h hb
  obtain ⟨rfl, rfl⟩ : t = t' ∧ a = a' := by simpa [hguarded.request] using hreq.symm
  obtain ⟨heq, hgood⟩ := ((hguarded.guarded σ hok).mpr hmeets).reached c hreach hbody
  exact ⟨b, hb, t, a, hreq, heq ▸ hguarded.mem, σ, hrun, hreach, hgood⟩

end Main

/-! ## A function with one block -/

/-- Checks for 32 bits, without handlers of signals. -/
def inserting32 (gcCheck : GcCheck) : Inserting where
  ctl := { csize := 32, gcCheck := gcCheck, limitCheckExpect := none, signalCheckAtLimitCheck := true,
           signalCheckExpect := none, stackCheckExpect := none }
  handlesSignals := false
  newFlag _ := .runtime .curSourceSeqIndex

/-- A C function that allocates the number of bytes of its first argument. -/
def allocating : CFunction where
  kind := .runtime
    { bytesNeeded := some 0, ensuresBytesFree := none, mayGC := true, maySwitchThreadsFrom := false
      maySwitchThreadsTo := false, modifiesFrontier := true, readsStackTop := true, writesStackTop := true
      readsRegionTop := false, writesRegionTop := false }
  target := 2

/-- A block that allocates an object of three words and calls it with a constant. -/
def allocatingBlock (bytes : ℕ) : Block :=
  jumpBlock ⟨0⟩ [.object (⟨0⟩, csizeTy 32) (.normal [] ⟨0⟩) .heap]
    (.ccall [wordOper (fromBytes bytes 32)] allocating none)

/-- The function of this block. -/
def allocates (bytes : ℕ) : Function where
  args := []
  blocks := [allocatingBlock bytes]
  name := ⟨0⟩
  raises := none
  returns := none
  start := ⟨0⟩

/-- The same amount for every block. -/
def needsOf (amount : ℕ) : Needs where
  blockLimitCheckAmount _ := amount
  ensureFree _ := 0
  needsSignalCheck _ := false

/-- A machine with a frontier at 4096, a limit at 8192, and the slop behind it. -/
def machine32 : Machine 32 where
  vars _ := 0
  field
    | .frontier => 4096
    | .limit => 8192
    | .limitPlusSlop => 8704
    | _ => 0
  memory _ := 0
  collections := 0

theorem machine32_ok : machine32.Ok := ⟨by decide, by decide, .inr (by decide)⟩

theorem insertFunction_guards_allocates : ∃ r,
    insertFunction (inserting32 .first) (needsOf 528) 1 1 (allocates 512) = some r ∧
      (r.function.blocks.map Block.label).Nodup ∧
      ∃ body t a, BlockGuarded (inserting32 .first) (needsOf 528) 1 (allocates 512) r (allocatingBlock 512) body t a := by
  obtain ⟨r, hr⟩ : ∃ r, insertFunction (inserting32 .first) (needsOf 528) 1 1 (allocates 512) = some r := ⟨_, rfl⟩
  obtain ⟨-, hnodup, hblocks, -⟩ := insertFunction_guards (by simp [allocates]) (by simp [allocates, allocatingBlock,
    jumpBlock]) (by simp [allocates, allocatingBlock, jumpBlock, Transfer.uses, wordOper, Operand.vars]) hr
  exact ⟨r, hr, hnodup, hblocks _ (List.mem_singleton.mpr rfl)⟩

/-- An object of 16 bytes and 4294967280 bytes of the call are `2 ^ 32` bytes: the check is for none, and control
gets to the statements. -/
theorem insertFunction_wraps :
    objectBytesAllocated ⟨4, 4, 12⟩ (fun _ => .normal (List.replicate 3 (csizeTy 32, false)) false)
      (allocatingBlock 4294967280) = some (2 ^ 32) ∧
    ∃ r, insertFunction (inserting32 .limit) (needsOf (2 ^ 32)) 1 1 (allocates 4294967280) = some r ∧
      machine32.Ok ∧ ∃ body τ, (⟨0⟩, body) ∈ r.bodies ∧
        Reach r.function.block? (IsBody r.bodies) (⟨0⟩, machine32) (body, τ) ∧
        (τ.field .limitPlusSlop).toNat < (τ.field .frontier).toNat + 2 ^ 32 := by
  let τ₁ : Machine 32 := { machine32 with vars := Function.update machine32.vars ⟨3⟩ 0 }
  let τ₂ : Machine 32 := { τ₁ with vars := Function.update τ₁.vars ⟨1⟩ (8704 - 4096) }
  let τ₃ : Machine 32 := { τ₂ with vars := Function.update τ₂.vars ⟨2⟩ (bit (τ₂.vars ⟨1⟩ < BitVec.ofNat 32 0)) }
  have hzero : τ₃.vars ⟨2⟩ = 0 := by simp [τ₃, bit]
  have hnot : ∀ l : Label, l ≠ ⟨3⟩ → ¬ IsBody [(⟨0⟩, ⟨3⟩)] l := by
    rintro l hl ⟨_, h⟩
    exact hl (Prod.mk.inj (List.mem_singleton.mp h)).2
  refine ⟨by decide, _, rfl, machine32_ok, ⟨3⟩, τ₃, .head _, ?_, ?_⟩
  swap
  · change 8704 < 4096 + 2 ^ 32
    omega
  refine .head (b := (⟨5⟩, machine32)) ⟨hnot _ (by decide), _, machine32, rfl, rfl, .goto _⟩ ?_
  refine .head (b := (⟨4⟩, τ₁)) ⟨hnot _ (by decide), _, τ₁, rfl, ⟨τ₁, .prim .cpointerLt _ _ _ _, rfl⟩, go_false rfl⟩ ?_
  exact .single ⟨hnot _ (by decide), _, τ₃, rfl, ⟨τ₂, .prim .cpointerDiff _ _ _ _, τ₃, .prim .wordLt _ _ _ _, rfl⟩,
    go_false hzero⟩

end MLton.Rssa.InsertChecks
