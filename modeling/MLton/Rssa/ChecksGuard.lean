import MLton.Rssa.CheckMachine

/-!
# Rssa/ChecksGuard — a chain of checks guards the statements behind it

The checks of a block are made from the last to the first, and their rules follow that order: what a test leads to
is known of the block it goes on to and of the block that collects.  The fields do not change on the way, and so
what a test finds out holds at the statements.

* `Grow` — a step of the pass adds one block for each label it makes;
* `Good` — what has to hold at the statements;
* `mkChecks_leads` — the first check leads to the statements in good states only.
-/

namespace MLton.Rssa.InsertChecks

/-! ## Blocks and labels -/

/-- A step of the pass adds blocks, one for each new label. -/
structure Grow (s s' : InsertState) : Prop where
  labels : s.labels ≤ s'.labels
  vars : s.vars ≤ s'.vars
  blocks : ∃ bs, s'.newBlocks = bs ++ s.newBlocks ∧
    (bs.map Block.label).Perm ((List.range' s.labels (s'.labels - s.labels)).map Label.mk)

theorem Grow.refl (s : InsertState) : Grow s s := ⟨le_rfl, le_rfl, [], by simp⟩

theorem Grow.trans {s s' s'' : InsertState} (h : Grow s s') (h' : Grow s' s'') : Grow s s'' := by
  obtain ⟨bs, hbs, hperm⟩ := h.blocks
  obtain ⟨bs', hbs', hperm'⟩ := h'.blocks
  have hl := h.labels
  have hl' := h'.labels
  refine ⟨hl.trans hl', h.vars.trans h'.vars, bs' ++ bs, by rw [hbs', hbs, List.append_assoc], ?_⟩
  have hrange : List.range' s.labels (s''.labels - s.labels) =
      List.range' s.labels (s'.labels - s.labels) ++ List.range' s'.labels (s''.labels - s'.labels) := by
    have := List.range'_append_1 (s := s.labels) (m := s'.labels - s.labels) (n := s''.labels - s'.labels)
    rw [show s.labels + (s'.labels - s.labels) = s'.labels by omega,
      show s'.labels - s.labels + (s''.labels - s'.labels) = s''.labels - s.labels by omega] at this
    exact this.symm
  rw [List.map_append, hrange, List.map_append]
  exact (hperm'.append hperm).trans List.perm_append_comm

/-- Every new block can be looked up. -/
def Holds (code : Label → Option Block) (s : InsertState) : Prop := ∀ b ∈ s.newBlocks, code b.label = some b

variable {code : Label → Option Block} {Body : Label → Prop} {s s' : InsertState} {I : Inserting} {ctl : CheckControl}

theorem Grow.holds (h : Grow s s') (hcode : Holds code s') : Holds code s := fun b hb => by
  obtain ⟨bs, hbs, -⟩ := h.blocks
  exact hcode b (hbs ▸ List.mem_append_right _ hb)

/-- A block for one label. -/
theorem grow_jumpBlock {v : ℕ} (hv : s.vars ≤ v) {ss : List Statement} {t : Transfer} :
    Grow s { s with newBlocks := jumpBlock ⟨s.labels⟩ ss t :: s.newBlocks, labels := s.labels + 1, vars := v } :=
  ⟨Nat.le_succ _, hv, [_], rfl, by simp [jumpBlock]⟩

theorem grow_mkSmallLimitCheck (collect nextCheck : Label) :
    Grow s (mkSmallLimitCheck ctl collect nextCheck s).2 :=
  grow_jumpBlock (Nat.le_succ _)

theorem grow_mkLimitCheck (ctl : CheckControl) (s : InsertState) (lc : LimitCheck) (collect nextCheck : Label) :
    Grow s (mkLimitCheck ctl lc collect nextCheck s).2 := by
  cases lc with
  | zero => exact Grow.refl s
  | small => exact grow_mkSmallLimitCheck collect nextCheck
  | large oper => exact grow_jumpBlock (Nat.le_add_right _ 2)

theorem grow_mkSignalCheck (ctl : CheckControl) (s : InsertState) (handlesSignals needsSignalCheck : Bool)
    (lc : LimitCheck) (collect nextCheck : Label) :
    Grow s (mkSignalCheck ctl handlesSignals needsSignalCheck lc collect nextCheck s).2 := by
  cases lc with
  | zero =>
    cases needsSignalCheck
    · exact Grow.refl s
    · exact grow_mkSmallLimitCheck collect nextCheck
  | small => exact Grow.refl s
  | large oper =>
    simp only [mkSignalCheck]
    split
    · exact grow_jumpBlock (Nat.le_succ _)
    · exact Grow.refl s

theorem grow_mkStackCheck (ctl : CheckControl) (s : InsertState) (needsStackCheck : Bool) (collect nextCheck : Label) :
    Grow s (mkStackCheck ctl needsStackCheck collect nextCheck s).2 := by
  cases needsStackCheck
  · exact Grow.refl s
  · exact grow_jumpBlock (Nat.le_succ _)

/-- The block that collects. -/
def collectBlock (handlesSignals : Bool) (l : Label) (amount force : Operand) (collectReturn : Label) : Block :=
  jumpBlock l [] (.ccall [.gcState, amount, force] (gcFunction handlesSignals) (some collectReturn))

/-- The block that it returns to. -/
def collectReturnBlock (handlesSignals : Bool) (l : Label) (statements : List Statement) (doneCollect : Label) :
    Block :=
  { args := [], kind := .creturn (gcFunction handlesSignals), label := l, statements := statements
    transfer := .goto [] doneCollect }

/-- **What `mkCollect` makes**: the three blocks, and a fourth one in the mode that collects at first. -/
structure CollectSpec (handlesSignals : Bool) (ss : List Statement) (t : Transfer) (amount : Operand)
    (s : InsertState) (c : Collect) (s' : InsertState) : Prop where
  grow : Grow s s'
  vars : s'.vars = s.vars
  tooLarge : s'.tooLarge = s.tooLarge
  collect : c.collect = ⟨s.labels⟩
  doneCollect : c.doneCollect = ⟨s.labels + 2⟩
  lt : s.labels + 2 < s'.labels
  body_mem : jumpBlock ⟨s.labels + 2⟩ ss t ∈ s'.newBlocks
  collect_mem : ∃ force, collectBlock handlesSignals ⟨s.labels⟩ amount force ⟨s.labels + 1⟩ ∈ s'.newBlocks
  return_mem : ∃ flag crs, (crs = [] ∨ crs = [.move flag (boolOper false)]) ∧
    collectReturnBlock handlesSignals ⟨s.labels + 1⟩ crs ⟨s.labels + 2⟩ ∈ s'.newBlocks
  dontCollect : c.dontCollect = ⟨s.labels⟩ ∨ c.dontCollect = ⟨s.labels + 2⟩ ∨
    (c.dontCollect = ⟨s.labels + 3⟩ ∧ s.labels + 3 < s'.labels ∧
      ∃ flag, jumpBlock ⟨s.labels + 3⟩ [] (ifBoolE flag none ⟨⟨s.labels + 2⟩, ⟨s.labels⟩⟩) ∈ s'.newBlocks)

/-- Blocks for the next labels, in order. -/
theorem grow_of_blocks (bs : List Block) (hl : s'.labels = s.labels + bs.length) (hv : s'.vars = s.vars)
    (hn : s'.newBlocks = bs ++ s.newBlocks)
    (hm : bs.map Block.label = (List.range' s.labels bs.length).map Label.mk) : Grow s s' :=
  ⟨by omega, hv.ge, bs, hn, by rw [hm, hl, Nat.add_sub_cancel_left]⟩

theorem mkCollect_spec (ctl : CheckControl) (handlesSignals : Bool) (newFlag : ℕ → Operand) (ss : List Statement)
    (t : Transfer) (amount : Operand) (s : InsertState) :
    CollectSpec handlesSignals ss t amount s (mkCollect ctl handlesSignals newFlag ss t amount s).1
      (mkCollect ctl handlesSignals newFlag ss t amount s).2 := by
  cases hgc : ctl.gcCheck with
  | first =>
    have heq : mkCollect ctl handlesSignals newFlag ss t amount s =
        (⟨⟨s.labels⟩, ⟨s.labels + 3⟩, ⟨s.labels + 2⟩⟩,
          { s with
            newBlocks := collectBlock handlesSignals ⟨s.labels⟩ amount (newFlag s.flags) ⟨s.labels + 1⟩ ::
              collectReturnBlock handlesSignals ⟨s.labels + 1⟩ [.move (newFlag s.flags) (boolOper false)]
                ⟨s.labels + 2⟩ ::
              jumpBlock ⟨s.labels + 2⟩ ss t ::
              jumpBlock ⟨s.labels + 3⟩ [] (ifBoolE (newFlag s.flags) none ⟨⟨s.labels + 2⟩, ⟨s.labels⟩⟩) ::
              s.newBlocks
            flags := s.flags + 1, labels := s.labels + 4 }) := by
      simp only [mkCollect, hgc]
      rfl
    rw [heq]
    exact ⟨grow_of_blocks [_, _, _, _] rfl rfl rfl
        (by simp [collectBlock, collectReturnBlock, jumpBlock, List.range']),
      rfl, rfl, rfl, rfl, by simp, by simp, ⟨_, List.mem_cons_self ..⟩, ⟨newFlag s.flags, _, .inr rfl, by simp⟩,
      .inr (.inr ⟨rfl, by simp, newFlag s.flags, by simp⟩)⟩
  | limit =>
    have heq : mkCollect ctl handlesSignals newFlag ss t amount s =
        (⟨⟨s.labels⟩, ⟨s.labels + 2⟩, ⟨s.labels + 2⟩⟩,
          { s with
            newBlocks := collectBlock handlesSignals ⟨s.labels⟩ amount (boolOper false) ⟨s.labels + 1⟩ ::
              collectReturnBlock handlesSignals ⟨s.labels + 1⟩ [] ⟨s.labels + 2⟩ ::
              jumpBlock ⟨s.labels + 2⟩ ss t :: s.newBlocks
            labels := s.labels + 3 }) := by
      simp only [mkCollect, hgc]
      rfl
    rw [heq]
    exact ⟨grow_of_blocks [_, _, _] rfl rfl rfl
        (by simp [collectBlock, collectReturnBlock, jumpBlock, List.range']),
      rfl, rfl, rfl, rfl, by simp, by simp, ⟨_, List.mem_cons_self ..⟩, ⟨.gcState, _, .inl rfl, by simp⟩,
      .inr (.inl rfl)⟩
  | every =>
    have heq : mkCollect ctl handlesSignals newFlag ss t amount s =
        (⟨⟨s.labels⟩, ⟨s.labels⟩, ⟨s.labels + 2⟩⟩,
          { s with
            newBlocks := collectBlock handlesSignals ⟨s.labels⟩ amount (boolOper true) ⟨s.labels + 1⟩ ::
              collectReturnBlock handlesSignals ⟨s.labels + 1⟩ [] ⟨s.labels + 2⟩ ::
              jumpBlock ⟨s.labels + 2⟩ ss t :: s.newBlocks
            labels := s.labels + 3 }) := by
      simp only [mkCollect, hgc]
      rfl
    rw [heq]
    exact ⟨grow_of_blocks [_, _, _] rfl rfl rfl
        (by simp [collectBlock, collectReturnBlock, jumpBlock, List.range']),
      rfl, rfl, rfl, rfl, by simp, by simp, ⟨_, List.mem_cons_self ..⟩, ⟨.gcState, _, .inl rfl, by simp⟩,
      .inl rfl⟩

/-! ## Good states -/

variable {w : ℕ} {σ σ' τ ρ : Machine w} {n need : ℕ} {d l : Label} {Q : Machine w → Prop}

/-- **What has to hold at the statements**, for a block that control entered in `σ`: the bytes needed are free, the
stack is within its limit where the block is the start, and a pending signal has led to a collection where the block
checks for signals.  Older variables are as they were. -/
structure Good (n need : ℕ) (stack signal : Bool) (σ τ : Machine w) : Prop where
  heap : (τ.field .frontier).toNat + need ≤ (τ.field .limitPlusSlop).toNat
  stack : stack = true → (τ.field .stackTop).toNat ≤ (τ.field .stackLimit).toNat
  signal : signal = true → τ.field .limit = 0 → σ.collections < τ.collections
  vars : ∀ x : Var, x.id < n → τ.vars x = σ.vars x

/-- From a state that differs from `σ` in new variables only, a label leads to the statements in states with `Q`. -/
def Chain (code : Label → Option Block) (Body : Label → Prop) (d : Label) (Q : Machine w → Prop) (n : ℕ)
    (σ : Machine w) (l : Label) : Prop :=
  ∀ τ, Same n σ τ → Leads code Body d Q l τ

/-- **A comparison.** -/
theorem chain_compare (hl : ¬ Body l) {p : CheckPrim} {a b : Operand} {x : Var} {expect : Option Bool}
    {collect next : Label}
    (hcode : code l = some (jumpBlock l [.primApp [a, b] (some (x, boolTy)) p.name]
      (ifBoolE (.var x boolTy) expect ⟨next, collect⟩)))
    (hx : n ≤ x.id) (ha : ∀ y ∈ a.vars, y.id < n) (hb : ∀ y ∈ b.vars, y.id < n)
    (hcollect : Chain code Body d Q n σ collect)
    (hnext : p.apply (σ.value a) (σ.value b) = 0 → Chain code Body d Q n σ next) : Chain code Body d Q n σ l := by
  intro τ hτ
  refine leads_test hl hcode rfl fun ρ hρ => ?_
  obtain ⟨ρ', hexec, rfl⟩ := hρ
  have heq := exec_prim hexec
  have hsame : Same n σ ρ := heq ▸ hτ.update hx _
  refine ⟨fun h0 => hnext ?_ ρ hsame, fun _ => hcollect ρ hsame⟩
  rw [heq] at h0
  simpa [Machine.value, hτ.value ha, hτ.value hb] using h0

theorem chain_mkSmallLimitCheck (hw : 0 < w) (hs : n ≤ s.vars) {collect next : Label}
    (hcode : Holds code (mkSmallLimitCheck ctl collect next s).2) (hl : ¬ Body ⟨s.labels⟩)
    (hcollect : Chain code Body d Q n σ collect)
    (hnext : (σ.field .frontier).toNat ≤ (σ.field .limit).toNat → Chain code Body d Q n σ next) :
    Chain code Body d Q n σ (mkSmallLimitCheck ctl collect next s).1 := by
  refine chain_compare hl (hcode _ (List.mem_cons_self ..)) hs (by simp [Operand.vars]) (by simp [Operand.vars])
    hcollect fun h => hnext ?_
  simpa [Machine.value, BitVec.lt_def] using (bit_eq_zero hw).mp h

theorem chain_mkStackCheck (hw : 0 < w) (hs : n ≤ s.vars) {needsStackCheck : Bool} {collect next : Label}
    (hcode : Holds code (mkStackCheck ctl needsStackCheck collect next s).2)
    (hl : needsStackCheck = true → ¬ Body ⟨s.labels⟩) (hcollect : Chain code Body d Q n σ collect)
    (hnext : (needsStackCheck = true → (σ.field .stackTop).toNat ≤ (σ.field .stackLimit).toNat) →
      Chain code Body d Q n σ next) :
    Chain code Body d Q n σ (mkStackCheck ctl needsStackCheck collect next s).1 := by
  cases needsStackCheck with
  | false => exact hnext (by simp)
  | true =>
    refine chain_compare (hl rfl) (hcode _ (List.mem_cons_self ..)) hs (by simp [Operand.vars])
      (by simp [Operand.vars]) hcollect fun h => hnext fun _ => ?_
    simpa [Machine.value, BitVec.lt_def] using (bit_eq_zero hw).mp h

/-- The test for a pending signal. -/
theorem chain_mkSignalCheck_large (hw : 0 < w) (hs : n ≤ s.vars) {handlesSignals needsSignalCheck : Bool}
    {oper : Operand} {collect next : Label}
    (hcode : Holds code (mkSignalCheck ctl handlesSignals needsSignalCheck (.large oper) collect next s).2)
    (hl : ∀ l : Label, s.labels ≤ l.id →
      l.id < (mkSignalCheck ctl handlesSignals needsSignalCheck (.large oper) collect next s).2.labels → ¬ Body l)
    (hcollect : Chain code Body d Q n σ collect)
    (hnext : (needsSignalCheck = true → σ.field .limit ≠ 0) → Chain code Body d Q n σ next) :
    Chain code Body d Q n σ (mkSignalCheck ctl handlesSignals needsSignalCheck (.large oper) collect next s).1 := by
  simp only [mkSignalCheck] at hcode hl ⊢
  split
  · rename_i hcond
    rw [if_pos hcond] at hcode hl
    refine chain_compare (hl ⟨s.labels⟩ le_rfl (Nat.lt_succ_self _)) (hcode _ (List.mem_cons_self ..)) hs
      (by simp [Operand.vars]) (by simp [Operand.vars, nullOper]) hcollect fun h => hnext fun _ => ?_
    simpa [Machine.value, nullOper] using (bit_eq_zero hw).mp h
  · rename_i hcond
    exact hnext fun h => absurd (by simp [h]) hcond

theorem chain_mkLargeLimitCheck (hok : σ.Ok) (hs : n ≤ s.vars) {oper : Operand} (hoper : ∀ y ∈ oper.vars, y.id < n)
    {collect next : Label} (hcode : Holds code (mkLargeLimitCheck ctl oper collect next s).2)
    (hl : ¬ Body ⟨s.labels⟩) (hcollect : Chain code Body d Q n σ collect)
    (hnext : (σ.field .frontier).toNat + (σ.value oper).toNat ≤ (σ.field .limitPlusSlop).toNat →
      Chain code Body d Q n σ next) :
    Chain code Body d Q n σ (mkLargeLimitCheck ctl oper collect next s).1 := by
  intro τ hτ
  refine leads_test hl (hcode _ (List.mem_cons_self ..)) rfl fun ρ hρ => ?_
  obtain ⟨ρ₁, hexec₁, ρ₂, hexec₂, rfl⟩ := hρ
  have h₁ := exec_prim hexec₁
  have h₂ := exec_prim hexec₂
  have hsame₁ : Same n σ ρ₁ := h₁ ▸ hτ.update hs _
  have hsame : Same n σ ρ := h₂ ▸ hsame₁.update (Nat.le_succ_of_le hs) _
  refine ⟨fun h0 => hnext ?_ ρ hsame, fun _ => hcollect ρ hsame⟩
  have hle := hok.frontier_le
  have havail : ρ₁.vars ⟨s.vars⟩ = σ.field .limitPlusSlop - σ.field .frontier := by
    rw [h₁]
    simp [Machine.value, CheckPrim.apply, hτ.field]
  rw [h₂] at h0
  simp only [Machine.value, Function.update_self] at h0
  replace h0 := (bit_eq_zero hok.width_pos).mp h0
  rw [decide_eq_false_iff_not, BitVec.not_lt, havail, hsame₁.value hoper, BitVec.le_def,
    BitVec.toNat_sub_of_le (BitVec.le_def.mpr hle)] at h0
  omega

/-! ## The block that collects -/

/-- **A collection leads to the statements**, in a state that it promises. -/
theorem chain_collect {handlesSignals stack signal : Bool} {amount force : Operand} {lr : Label} {flag : Operand}
    {crs : List Statement} (hl : ¬ Body l) (hlr : ¬ Body lr) (hd : Body d)
    (hcode : code l = some (collectBlock handlesSignals l amount force lr))
    (hcodeR : code lr = some (collectReturnBlock handlesSignals lr crs d))
    (hcrs : crs = [] ∨ crs = [.move flag (boolOper false)]) (hamount : ∀ y ∈ amount.vars, y.id < n)
    (hneed : need ≤ max (σ.value amount).toNat limitSlop) :
    Chain code Body d (Good n need stack signal σ) n σ l := by
  intro τ hτ
  refine leads_collect hl hcode rfl rfl fun ρ hρ => leads_goto hlr hcodeR rfl fun ρ' hρ' => leads_body hd ?_
  -- The flag is in memory, which no field or variable is.
  have hsame : ρ'.field = ρ.field ∧ ρ'.vars = ρ.vars ∧ ρ'.collections = ρ.collections := by
    rcases hcrs with rfl | rfl
    · obtain rfl : ρ' = ρ := hρ'
      exact ⟨rfl, rfl, rfl⟩
    · obtain ⟨ρ₁, hexec, rfl⟩ := hρ'
      cases hexec
      exact ⟨rfl, rfl, rfl⟩
  obtain ⟨hfield, hvars, hcol⟩ := hsame
  rw [hτ.value hamount] at hρ
  refine ⟨?_, fun _ => ?_, fun _ _ => ?_, fun x hx => ?_⟩
  · rw [hfield]
    exact (Nat.add_le_add_left hneed _).trans hρ.free
  · rw [hfield]
    exact hρ.stack
  · rw [hcol, hρ.collections, hτ.collections]
    exact Nat.lt_succ_self _
  · rw [hvars, hρ.vars]
    exact hτ.vars x hx

/-- The fields a check has looked at are still the same at the statements. -/
theorem chain_body {stack signal : Bool} (hd : Body d)
    (heap : (σ.field .frontier).toNat + need ≤ (σ.field .limitPlusSlop).toNat)
    (hstack : stack = true → (σ.field .stackTop).toNat ≤ (σ.field .stackLimit).toNat)
    (hsignal : signal = true → σ.field .limit ≠ 0) : Chain code Body d (Good n need stack signal σ) n σ d :=
  fun τ hτ => leads_body hd ⟨by rw [hτ.field]; exact heap, by rw [hτ.field]; exact hstack,
    fun h h0 => absurd (hτ.field ▸ h0) (hsignal h), hτ.vars⟩

/-- Labels that the checks of a block make: of these, the statements of the block are under `d` only. -/
def Only (Body : Label → Prop) (d : Label) (lo hi : ℕ) : Prop := ∀ l : Label, lo ≤ l.id → l.id < hi → Body l → l = d

theorem Only.not_body {lo hi : ℕ} (h : Only Body d lo hi) (hlo : lo ≤ l.id) (hhi : l.id < hi) (hne : l.id ≠ d.id) :
    ¬ Body l := fun hb => hne (congrArg Label.id (h l hlo hhi hb))

/-- **What `mkCollect` returns leads to the statements**: the block that collects always, and the other one where
the checks have passed. -/
theorem CollectSpec.chain {handlesSignals stack signal : Bool} {ss : List Statement} {t : Transfer} {amount : Operand}
    {c : Collect} (h : CollectSpec handlesSignals ss t amount s c s') (hcode : Holds code s') (hd : Body c.doneCollect)
    (honly : Only Body c.doneCollect s.labels s'.labels) (hamount : ∀ y ∈ amount.vars, y.id < n)
    (hneed : need ≤ max (σ.value amount).toNat limitSlop) :
    Chain code Body c.doneCollect (Good n need stack signal σ) n σ c.collect ∧
      ((σ.field .frontier).toNat + need ≤ (σ.field .limitPlusSlop).toNat →
        (stack = true → (σ.field .stackTop).toNat ≤ (σ.field .stackLimit).toNat) →
        (signal = true → σ.field .limit ≠ 0) →
          Chain code Body c.doneCollect (Good n need stack signal σ) n σ c.dontCollect) := by
  obtain ⟨force, hforce⟩ := h.collect_mem
  obtain ⟨flag, crs, hcrs, hreturn⟩ := h.return_mem
  have hlt := h.lt
  rw [h.doneCollect] at hd honly ⊢
  rw [h.collect]
  have hcollect : Chain code Body ⟨s.labels + 2⟩ (Good n need stack signal σ) n σ ⟨s.labels⟩ :=
    chain_collect (honly.not_body le_rfl (by simp only; omega) (by simp))
      (honly.not_body (by simp) (by simp only; omega) (by simp)) hd (hcode _ hforce) (hcode _ hreturn) hcrs hamount hneed
  refine ⟨hcollect, fun heap hstack hsignal => ?_⟩
  have hbody : Chain code Body ⟨s.labels + 2⟩ (Good n need stack signal σ) n σ ⟨s.labels + 2⟩ :=
    chain_body hd heap hstack hsignal
  obtain hdont | hdont | ⟨hdont, hlt', flag', hmem⟩ := h.dontCollect <;> rw [hdont]
  · exact hcollect
  · exact hbody
  · intro τ hτ
    refine leads_test (honly.not_body (by simp) (by simpa using hlt') (by simp)) (hcode _ hmem) rfl fun ρ hρ => ?_
    obtain rfl : ρ = τ := hρ
    exact ⟨fun _ => hbody ρ hτ, fun _ => hcollect ρ hτ⟩

/-- The amount a check is made for covers `need`. -/
def LimitCheck.Covers (lc : LimitCheck) (n : ℕ) (σ : Machine w) (need : ℕ) : Prop :=
  match lc with
  | .zero => need = 0
  | .small => need ≤ limitSlop
  | .large oper => (∀ y ∈ oper.vars, y.id < n) ∧ need ≤ (σ.value oper).toNat

/-- What is known after the limit check. -/
def LimitCheck.Passed (lc : LimitCheck) (σ : Machine w) : Prop :=
  match lc with
  | .zero => True
  | .small => (σ.field .frontier).toNat ≤ (σ.field .limit).toNat
  | .large oper => (σ.field .frontier).toNat + (σ.value oper).toNat ≤ (σ.field .limitPlusSlop).toNat

/-- A frontier below the limit means that no signal is pending. -/
theorem Machine.Ok.limit_ne_zero (hok : σ.Ok) (h : (σ.field .frontier).toNat ≤ (σ.field .limit).toNat) :
    σ.field .limit ≠ 0 := fun h0 => by
  have hpos := hok.frontier_pos
  rw [h0] at h
  simp at h
  omega

/-- What has passed covers the need. -/
theorem LimitCheck.Covers.heap {lc : LimitCheck} (hok : σ.Ok) (h : lc.Covers n σ need) (hp : lc.Passed σ) :
    (σ.field .frontier).toNat + need ≤ (σ.field .limitPlusSlop).toNat := by
  have hle := hok.frontier_le
  cases lc with
  | zero =>
    obtain rfl : need = 0 := h
    simpa using hle
  | small =>
    have hneed : need ≤ limitSlop := h
    have hlimit := hok.limit.resolve_left (hok.limit_ne_zero hp)
    have hp : (σ.field .frontier).toNat ≤ (σ.field .limit).toNat := hp
    omega
  | large oper =>
    have hp : (σ.field .frontier).toNat + (σ.value oper).toNat ≤ (σ.field .limitPlusSlop).toNat := hp
    have := h.2
    omega

/-- The signal check, in each of its three forms. -/
theorem chain_mkSignalCheck (hok : σ.Ok) (hs : n ≤ s.vars) {handlesSignals needsSignalCheck : Bool} {lc : LimitCheck}
    {collect next : Label}
    (hcode : Holds code (mkSignalCheck ctl handlesSignals needsSignalCheck lc collect next s).2)
    (hl : ∀ l : Label, s.labels ≤ l.id →
      l.id < (mkSignalCheck ctl handlesSignals needsSignalCheck lc collect next s).2.labels → ¬ Body l)
    (hcollect : Chain code Body d Q n σ collect)
    (hnext : (needsSignalCheck = true → σ.field .limit ≠ 0) → Chain code Body d Q n σ next) (hp : lc.Passed σ) :
    Chain code Body d Q n σ (mkSignalCheck ctl handlesSignals needsSignalCheck lc collect next s).1 := by
  cases lc with
  | zero =>
    cases needsSignalCheck with
    | false => exact hnext (by simp)
    | true =>
      exact chain_mkSmallLimitCheck hok.width_pos hs hcode (hl ⟨s.labels⟩ le_rfl (Nat.lt_succ_self _)) hcollect
        fun h => hnext fun _ => hok.limit_ne_zero h
  | small => exact hnext fun _ => hok.limit_ne_zero hp
  | large oper => exact chain_mkSignalCheck_large hok.width_pos hs hcode hl hcollect hnext

/-- The limit check, in each of its three forms. -/
theorem chain_mkLimitCheck (hok : σ.Ok) (hs : n ≤ s.vars) {lc : LimitCheck} {collect next : Label}
    (hcode : Holds code (mkLimitCheck ctl lc collect next s).2)
    (hl : ∀ l : Label, s.labels ≤ l.id → l.id < (mkLimitCheck ctl lc collect next s).2.labels → ¬ Body l)
    (hcover : lc.Covers n σ need) (hcollect : Chain code Body d Q n σ collect)
    (hnext : lc.Passed σ → Chain code Body d Q n σ next) :
    Chain code Body d Q n σ (mkLimitCheck ctl lc collect next s).1 := by
  cases lc with
  | zero => exact hnext trivial
  | small =>
    exact chain_mkSmallLimitCheck hok.width_pos hs hcode (hl ⟨s.labels⟩ le_rfl (Nat.lt_succ_self _)) hcollect hnext
  | large oper =>
    exact chain_mkLargeLimitCheck hok hs hcover.1 hcode (hl ⟨s.labels⟩ le_rfl (Nat.lt_succ_self _)) hcollect hnext

theorem mkChecks_eq (I : Inserting) (c : Checked) (lc : LimitCheck) (s : InsertState) :
    mkChecks I c lc s =
      let r₁ := mkCollect I.ctl I.handlesSignals I.newFlag c.statements c.transfer (lc.amount I.ctl) s
      let r₂ := mkSignalCheck I.ctl I.handlesSignals c.needsSignalCheck lc r₁.1.collect r₁.1.dontCollect r₁.2
      let r₃ := mkLimitCheck I.ctl lc r₁.1.collect r₂.1 r₂.2
      let r₄ := mkStackCheck I.ctl c.needsStackCheck r₁.1.collect r₃.1 r₃.2
      ((r₄.1, r₁.1.doneCollect), r₄.2) := rfl

/-- **The first check leads to the statements in good states only.** -/
theorem mkChecks_leads {c : Checked} {lc : LimitCheck} {hi : ℕ} (hok : σ.Ok) (hs : n ≤ s.vars)
    (hcode : Holds code (mkChecks I c lc s).2) (hd : Body (mkChecks I c lc s).1.2)
    (hhi : (mkChecks I c lc s).2.labels ≤ hi) (honly : Only Body (mkChecks I c lc s).1.2 s.labels hi)
    (hneed : lc.Covers n σ need) :
    Chain code Body (mkChecks I c lc s).1.2 (Good n need c.needsStackCheck c.needsSignalCheck σ) n σ
      (mkChecks I c lc s).1.1 := by
  rw [mkChecks_eq] at hcode hd hhi honly ⊢
  have hspec := mkCollect_spec I.ctl I.handlesSignals I.newFlag c.statements c.transfer (lc.amount I.ctl) s
  generalize mkCollect I.ctl I.handlesSignals I.newFlag c.statements c.transfer (lc.amount I.ctl) s = r₁ at *
  obtain ⟨col, s₁⟩ := r₁
  dsimp only at hcode hd hhi honly hspec ⊢
  -- The states after each check, all of whose blocks are among the last one's.
  have g₂ := grow_mkSignalCheck I.ctl s₁ I.handlesSignals c.needsSignalCheck lc col.collect
    col.dontCollect
  generalize h₂ : mkSignalCheck I.ctl I.handlesSignals c.needsSignalCheck lc col.collect col.dontCollect s₁ = r₂ at *
  have g₃ := grow_mkLimitCheck I.ctl r₂.2 lc col.collect r₂.1
  generalize h₃ : mkLimitCheck I.ctl lc col.collect r₂.1 r₂.2 = r₃ at *
  have g₄ := grow_mkStackCheck I.ctl r₃.2 c.needsStackCheck col.collect r₃.1
  have hcode₃ := g₄.holds hcode
  have hcode₂ := g₃.holds hcode₃
  have hv₁ : n ≤ s₁.vars := hspec.vars ▸ hs
  have hlt := hspec.lt
  have hd₀ : col.doneCollect.id = s.labels + 2 := by rw [hspec.doneCollect]
  have hle₂ := g₂.labels
  have hle₃ := g₃.labels
  have hle₄ := g₄.labels
  have hnot : ∀ l : Label, s₁.labels ≤ l.id →
      l.id < (mkStackCheck I.ctl c.needsStackCheck col.collect r₃.1 r₃.2).2.labels → ¬ Body l := fun l hlo hlt' =>
    honly.not_body (by omega) (by omega) (by omega)
  have hamount : ∀ y ∈ (lc.amount I.ctl).vars, y.id < n := by
    cases lc <;> simp [LimitCheck.amount, wordOper, Operand.vars]
    exact hneed.1
  have hcovered : need ≤ max (σ.value (lc.amount I.ctl)).toNat limitSlop := by
    cases lc with
    | zero => exact (show need = 0 from hneed) ▸ Nat.zero_le _
    | small => exact le_max_of_le_right hneed
    | large oper => exact le_max_of_le_left hneed.2
  have honly₁ : Only Body col.doneCollect s.labels s₁.labels := fun l hlo hlt' => honly l hlo (by omega)
  obtain ⟨hcollect, hdont⟩ : Chain code Body col.doneCollect (Good n need c.needsStackCheck c.needsSignalCheck σ) n σ
      col.collect ∧ (_ → _ → _ → Chain code Body col.doneCollect
        (Good n need c.needsStackCheck c.needsSignalCheck σ) n σ col.dontCollect) :=
    hspec.chain (g₂.holds hcode₂) hd honly₁ hamount hcovered
  refine chain_mkStackCheck hok.width_pos (hv₁.trans (g₂.vars.trans g₃.vars)) hcode (fun h => ?_) hcollect
    fun hstack => ?_
  · refine hnot _ (by simp only; omega) ?_
    rw [h]
    exact Nat.lt_succ_self _
  subst h₃
  refine chain_mkLimitCheck hok (hv₁.trans g₂.vars) hcode₃ (fun l hlo hlt' => hnot l (by omega) (by omega)) hneed
    hcollect fun hp => ?_
  subst h₂
  exact chain_mkSignalCheck hok hv₁ hcode₂ (fun l hlo hlt' => hnot l (by omega) (by omega)) hcollect
    (fun hsignal => hdont (hneed.heap hok hp) hstack hsignal) hp

end MLton.Rssa.InsertChecks
