import MLton.Rssa.ChecksGuard

/-!
# Rssa/ChecksInserted — every block is guarded, unless its amount wraps

`insertFunction` guards the statements of every block whose amount fits in a word of the width of `csize`.  An
amount that does not fit is reduced by `WordX.fromBytes`, which raises no `Overflow`: the handler that would go to
`heapCheckTooLarge` is never run, and the checks are made for what is left of the amount.
-/

namespace MLton.Rssa.InsertChecks

variable {code : Label → Option Block} {Body : Label → Prop} {s s' : InsertState} {I : Inserting} {ctl : CheckControl}
  {w : ℕ} {n need : ℕ} {d l : Label}

/-! ## What the pass makes of one block -/

/-- The tests, made after the block that collects. -/
theorem grow_tests (c : Checked) (lc : LimitCheck) (col : Collect) :
    Grow s (
      let r₂ := mkSignalCheck I.ctl I.handlesSignals c.needsSignalCheck lc col.collect col.dontCollect s
      let r₃ := mkLimitCheck I.ctl lc col.collect r₂.1 r₂.2
      mkStackCheck I.ctl c.needsStackCheck col.collect r₃.1 r₃.2).2 :=
  ((grow_mkSignalCheck ..).trans (grow_mkLimitCheck ..)).trans (grow_mkStackCheck ..)

theorem grow_mkChecks (c : Checked) (lc : LimitCheck) : Grow s (mkChecks I c lc s).2 :=
  (mkCollect_spec ..).grow.trans (grow_tests c lc _)

theorem tooLarge_mkSignalCheck (handlesSignals needsSignalCheck : Bool) (lc : LimitCheck) (collect nextCheck : Label) :
    (mkSignalCheck ctl handlesSignals needsSignalCheck lc collect nextCheck s).2.tooLarge = s.tooLarge := by
  cases lc with
  | zero => cases needsSignalCheck <;> rfl
  | small => rfl
  | large oper =>
    simp only [mkSignalCheck]
    split <;> rfl

theorem tooLarge_mkChecks (c : Checked) (lc : LimitCheck) : (mkChecks I c lc s).2.tooLarge = s.tooLarge := by
  rw [mkChecks_eq]
  dsimp only
  have hstack : ∀ (b : Bool) (l l' : Label) (s : InsertState),
      (mkStackCheck I.ctl b l l' s).2.tooLarge = s.tooLarge := fun b l l' s => by cases b <;> rfl
  have hlimit : ∀ (l l' : Label) (s : InsertState), (mkLimitCheck I.ctl lc l l' s).2.tooLarge = s.tooLarge :=
    fun l l' s => by cases lc <;> rfl
  rw [hstack, hlimit, tooLarge_mkSignalCheck]
  exact (mkCollect_spec ..).tooLarge

/-- The statements of the block are under the label that is returned. -/
theorem body_mkChecks (c : Checked) (lc : LimitCheck) :
    (mkChecks I c lc s).1.2 = ⟨s.labels + 2⟩ ∧ s.labels + 2 < (mkChecks I c lc s).2.labels ∧
      jumpBlock ⟨s.labels + 2⟩ c.statements c.transfer ∈ (mkChecks I c lc s).2.newBlocks := by
  rw [mkChecks_eq]
  dsimp only
  have hspec := mkCollect_spec I.ctl I.handlesSignals I.newFlag c.statements c.transfer (lc.amount I.ctl) s
  generalize mkCollect I.ctl I.handlesSignals I.newFlag c.statements c.transfer (lc.amount I.ctl) s = r₁ at *
  have hgrow := grow_tests (I := I) (s := r₁.2) c lc r₁.1
  refine ⟨hspec.doneCollect, hspec.lt.trans_le hgrow.labels, ?_⟩
  obtain ⟨bs, hbs, -⟩ := hgrow.blocks
  rw [hbs]
  exact List.mem_append_right _ hspec.body_mem

/-- The first check of a block that needs bytes is a test. -/
theorem first_mkChecks (c : Checked) {lc : LimitCheck} (hlc : lc ≠ .zero) :
    ∃ b ∈ (mkChecks I c lc s).2.newBlocks, b.label = (mkChecks I c lc s).1.1 ∧
      ∃ test expect br, b.transfer = ifBoolE test expect br := by
  rw [mkChecks_eq]
  dsimp only
  generalize mkCollect I.ctl I.handlesSignals I.newFlag c.statements c.transfer (lc.amount I.ctl) s = r₁
  generalize mkSignalCheck I.ctl I.handlesSignals c.needsSignalCheck lc r₁.1.collect r₁.1.dontCollect r₁.2 = r₂
  cases hstack : c.needsStackCheck with
  | true => exact ⟨_, List.mem_cons_self .., rfl, _, _, _, rfl⟩
  | false =>
    cases lc with
    | zero => exact absurd rfl hlc
    | small => exact ⟨_, List.mem_cons_self .., rfl, _, _, _, rfl⟩
    | large oper => exact ⟨_, List.mem_cons_self .., rfl, _, _, _, rfl⟩

/-- A block that calls `MLton_heapCheckTooLarge`, which does not return. -/
def IsTooLarge (b : Block) : Prop := b.statements = [] ∧ b.transfer = .ccall [] heapCheckTooLargeFunction none

/-- The label of `heapCheckTooLarge`, once it is made, has its block. -/
def TooLargeOk (s : InsertState) : Prop := ∀ l, s.tooLarge = some l → ∃ b ∈ s.newBlocks, b.label = l ∧ IsTooLarge b

theorem Grow.mem (h : Grow s s') {b : Block} (hb : b ∈ s.newBlocks) : b ∈ s'.newBlocks := by
  obtain ⟨bs, hbs, -⟩ := h.blocks
  exact hbs ▸ List.mem_append_right _ hb

theorem heapCheckTooLarge_spec (h : TooLargeOk s) :
    Grow s (heapCheckTooLarge s).2 ∧ TooLargeOk (heapCheckTooLarge s).2 ∧
      (heapCheckTooLarge s).2.tooLarge = some (heapCheckTooLarge s).1 ∧
      (s.tooLarge = some (heapCheckTooLarge s).1 ∨
        s.tooLarge = none ∧ (heapCheckTooLarge s).1 = ⟨s.labels⟩ ∧ s.labels < (heapCheckTooLarge s).2.labels) := by
  cases hl : s.tooLarge with
  | some l =>
    have heq : heapCheckTooLarge s = (l, s) := by
      cases s
      cases hl
      rfl
    rw [heq]
    exact ⟨Grow.refl s, h, hl, .inl rfl⟩
  | none =>
    have heq : heapCheckTooLarge s = (⟨s.labels⟩,
        { s with
          newBlocks := jumpBlock ⟨s.labels⟩ [] (.ccall [] heapCheckTooLargeFunction none) :: s.newBlocks
          tooLarge := some ⟨s.labels⟩, labels := s.labels + 1 }) := by
      cases s
      cases hl
      rfl
    rw [heq]
    refine ⟨⟨Nat.le_succ _, le_rfl, [_], rfl, by simp [jumpBlock]⟩, fun l hl => ?_, rfl,
      .inr ⟨rfl, rfl, Nat.lt_succ_self _⟩⟩
    obtain rfl := Option.some.inj hl
    exact ⟨_, List.mem_cons_self .., rfl, rfl, rfl⟩

/-- What the block of a label with checks does when it is entered: which sums overflow, given the amount and what
the transfer asks for. -/
def SumOverflows (amount : ℕ) (allocated : BytesAllocated) (σ : Machine w) : Prop :=
  match allocated with
  | .dynamic oper => amount % 2 ^ w ≠ 0 ∧ 2 ^ w ≤ amount % 2 ^ w + (σ.value oper).toNat
  | .static _ => False

/-- The bytes that the transfer asks for at run time. -/
def dynamicBytes (allocated : BytesAllocated) (σ : Machine w) : ℕ :=
  match allocated with
  | .dynamic oper => (σ.value oper).toNat
  | .static _ => 0

/-- A label whose block, made by the pass, calls `MLton_heapCheckTooLarge`. -/
def TooLarge (code : Label → Option Block) (Body : Label → Prop) (l : Label) : Prop :=
  ¬ Body l ∧ ∃ b, code l = some b ∧ IsTooLarge b

/-- **What is known of the entry of a block**, once all blocks of the function are in place. -/
structure EntryFacts (code : Label → Option Block) (Body : Label → Prop) (n : ℕ) (c : Checked) (label : Label)
    (amount : ℕ) (allocated : BytesAllocated) (body : Label) (w : ℕ) : Prop where
  leads : ∀ σ : Machine w, σ.Ok → amount < 2 ^ w → ¬ SumOverflows amount allocated σ →
    Leads code Body body (Good n (amount + dynamicBytes allocated σ) c.needsStackCheck c.needsSignalCheck σ) label σ
  tooLarge : ∀ σ : Machine w, σ.Ok → SumOverflows amount allocated σ →
    ¬ Body label ∧ (∃ c, Step code Body (label, σ) c) ∧ ∀ c, Step code Body (label, σ) c → TooLarge code Body c.1
  checks : ∀ σ : Machine w, σ.Ok → 2 ^ w ≤ amount → ¬ SumOverflows amount allocated σ →
    ∃ c, Step code Body (label, σ) c ∧ ¬ TooLarge code Body c.1

/-- What the pass makes of a block. -/
structure EntrySpec (I : Inserting) (c : Checked) (label : Label) (amount : ℕ) (allocated : BytesAllocated)
    (s : InsertState) (e : Entry) (s' : InsertState) : Prop where
  grow : Grow s s'
  tooLargeOk : TooLargeOk s'
  tooLarge : ∀ l, s'.tooLarge = some l →
    s.tooLarge = some l ∨ (s.tooLarge = none ∧ s.labels ≤ l.id ∧ l.id < s'.labels ∧ l ≠ e.body)
  tooLarge_keep : ∀ l, s.tooLarge = some l → s'.tooLarge = some l
  body : (e.body = label ∧ e.statements = c.statements ∧ e.transfer = c.transfer) ∨
    (s.labels ≤ e.body.id ∧ e.body.id < s'.labels ∧ jumpBlock e.body c.statements c.transfer ∈ s'.newBlocks)
  facts : ∀ (code : Label → Option Block) (Body : Label → Prop) (b : Block), Holds code s' → code label = some b →
    b.statements = e.statements → b.transfer = e.transfer → Body e.body → Only Body e.body s.labels s'.labels →
      (Body label → label = e.body) → (∀ l, s'.tooLarge = some l → ¬ Body l) → ∀ n ≤ s.vars,
        (∀ oper, allocated = .dynamic oper → ∀ x ∈ oper.vars, x.id < n) →
          EntryFacts code Body n c label amount allocated e.body I.ctl.csize

/-- A test is no call. -/
theorem not_tooLarge_of_test (hcode : Holds code s) (h : ∃ b ∈ s.newBlocks, b.label = l ∧
    ∃ test expect br, b.transfer = ifBoolE test expect br) : ¬ TooLarge code Body l := by
  rintro ⟨-, b', hb', -, htr'⟩
  obtain ⟨b, hb, rfl, test, expect, br, htr⟩ := h
  obtain rfl := Option.some.inj ((hcode b hb).symm.trans hb')
  rw [htr'] at htr
  cases htr

/-- Blocks that go to their checks at once. -/
theorem gotoChecks_spec (hs : TooLargeOk s) {c : Checked} {lc : LimitCheck} {label : Label} {amount : ℕ}
    {allocated : BytesAllocated} (hlabel : label.id < s.labels)
    (hlc : lc = .zero → amount = 0)
    (hno : ∀ σ : Machine I.ctl.csize, ¬ SumOverflows amount allocated σ)
    (hcover : ∀ (n : ℕ) (σ : Machine I.ctl.csize), amount < 2 ^ I.ctl.csize →
      (∀ oper, allocated = .dynamic oper → ∀ x ∈ oper.vars, x.id < n) →
        lc.Covers n σ (amount + dynamicBytes allocated σ)) :
    EntrySpec I c label amount allocated s (gotoChecks I c lc s).1 (gotoChecks I c lc s).2 := by
  obtain ⟨hbody, hlt, hmem⟩ := body_mkChecks (I := I) (s := s) c lc
  have htl := tooLarge_mkChecks (I := I) (s := s) c lc
  have hgrow := grow_mkChecks (I := I) (s := s) c lc
  refine ⟨hgrow, fun l hl => ?_, fun l hl => .inl (htl ▸ hl), fun l hl => htl.trans hl, .inr ⟨?_, ?_, ?_⟩, ?_⟩
  · obtain ⟨b, hb, hrest⟩ := hs l (htl ▸ hl)
    exact ⟨b, hgrow.mem hb, hrest⟩
  · change s.labels ≤ (mkChecks I c lc s).1.2.id
    rw [hbody]
    simp
  · change (mkChecks I c lc s).1.2.id < (mkChecks I c lc s).2.labels
    rw [hbody]
    exact hlt
  · change jumpBlock (mkChecks I c lc s).1.2 _ _ ∈ _
    rw [hbody]
    exact hmem
  · intro code Body b hcode hb hstmts htr hd honly hlabelBody _ n hn hoper
    have hd' : Body (mkChecks I c lc s).1.2 := hd
    have hnot : ¬ Body label := fun h => by
      have heq : label = (mkChecks I c lc s).1.2 := hlabelBody h
      rw [hbody] at heq
      rw [heq] at hlabel
      simp only at hlabel
      omega
    have hgoto : b.transfer = .goto [] (mkChecks I c lc s).1.1 := htr
    have hnil : b.statements = [] := hstmts
    refine ⟨fun σ hok hfit _ => ?_, fun σ _ h => absurd h (hno σ), fun σ hok hbig _ => ?_⟩
    · refine leads_goto hnot hb hgoto fun ρ hρ => ?_
      rw [hnil] at hρ
      obtain rfl : ρ = σ := hρ
      exact mkChecks_leads hok hn hcode hd' le_rfl honly (hcover n ρ hfit hoper) ρ .refl
    · refine ⟨((mkChecks I c lc s).1.1, σ), ⟨hnot, b, σ, hb, ?_, ?_⟩, ?_⟩
      · rw [hnil]
        exact rfl
      · rw [hgoto]
        exact .goto _
      · refine not_tooLarge_of_test hcode (first_mkChecks c fun h => ?_)
        have hpos := Nat.two_pow_pos I.ctl.csize
        have := hlc h
        omega

theorem Good.of_same {n' : ℕ} {stack signal : Bool} {σ σ' τ : Machine w} (h : Good n' need stack signal σ' τ)
    (hs : Same n σ σ') (hn : n ≤ n') : Good n need stack signal σ τ :=
  ⟨h.heap, h.stack, fun h1 h0 => hs.collections ▸ h.signal h1 h0,
    fun x hx => (h.vars x (hx.trans_le hn)).trans (hs.vars x hx)⟩

/-- The statements that add the amounts, and what they find. -/
theorem execAll_add {σ ρ : Machine w} {x y : Var} {tx ty : Ty} {a b : Operand} (hx : n ≤ x.id) (hy : n ≤ y.id)
    (hxy : x ≠ y) (ha : ∀ z ∈ a.vars, z.id < n) (hb : ∀ z ∈ b.vars, z.id < n)
    (h : ExecAll [.primApp [a, b] (some (x, tx)) CheckPrim.wordAdd.name,
      .primApp [a, b] (some (y, ty)) CheckPrim.wordAddCheckP.name] σ ρ) :
    Same n σ ρ ∧ ρ.vars x = σ.value a + σ.value b ∧
      ρ.vars y = bit (2 ^ w ≤ (σ.value a).toNat + (σ.value b).toNat) := by
  obtain ⟨ρ₁, hexec₁, ρ₂, hexec₂, rfl⟩ := h
  have h₁ := exec_prim hexec₁
  have h₂ := exec_prim hexec₂
  have hs₁ : Same n σ ρ₁ := h₁ ▸ Same.refl.update hx _
  rw [hs₁.value ha, hs₁.value hb] at h₂
  refine ⟨h₂ ▸ hs₁.update hy _, ?_, ?_⟩
  · rw [h₂, h₁]
    simp [hxy, CheckPrim.apply]
  · rw [h₂]
    simp [CheckPrim.apply]

/-- The statements can be run. -/
theorem exists_execAll_add (σ : Machine w) (x y : Var) (tx ty : Ty) (a b : Operand) :
    ∃ ρ, ExecAll [.primApp [a, b] (some (x, tx)) CheckPrim.wordAdd.name,
      .primApp [a, b] (some (y, ty)) CheckPrim.wordAddCheckP.name] σ ρ :=
  ⟨_, _, .prim .wordAdd a b x tx, _, .prim .wordAddCheckP a b y ty, rfl⟩

theorem go_true {σ : Machine w} {test : Operand} {expect : Option Bool} {br : Branches} (h : σ.value test = 1) :
    Go σ (ifBoolE test expect br) br.truee σ :=
  .case _ (mkWord 1 boolSize) _ (by simp) h

theorem go_false {σ : Machine w} {test : Operand} {expect : Option Bool} {br : Branches} (h : σ.value test = 0) :
    Go σ (ifBoolE test expect br) br.falsee σ :=
  .case _ (mkWord 0 boolSize) _ (by simp) h

theorem bigAllocation_eq (I : Inserting) (c : Checked) {word : WordX} (hword : isZeroWord word = false)
    (oper : Operand) (s : InsertState) :
    bigAllocation I c word oper s =
      let s₁ : InsertState := { s with vars := s.vars + 2 }
      let r₂ := mkChecks I c (.large (.var ⟨s.vars⟩ (csizeTy I.ctl.csize))) s₁
      let r₃ := heapCheckTooLarge r₂.2
      (⟨[.primApp [wordOper word, oper] (some (⟨s.vars⟩, csizeTy I.ctl.csize)) CheckPrim.wordAdd.name,
          .primApp [wordOper word, oper] (some (⟨s.vars + 1⟩, boolTy)) CheckPrim.wordAddCheckP.name],
        ifBoolE (.var ⟨s.vars + 1⟩ boolTy) none ⟨r₂.1.1, r₃.1⟩, r₂.1.2⟩, r₃.2) := by
  simp only [bigAllocation, hword]
  rfl

theorem fromBytes_toNat (amount : ℕ) (σ : Machine w) :
    (σ.value (wordOper (fromBytes amount w))).toNat = amount % 2 ^ w := by
  simp [Machine.value, wordOper, fromBytes, mkWord]

/-- **A dynamic amount on top of a static one.** -/
theorem bigAllocation_spec (hs : TooLargeOk s) {c : Checked} {label : Label} {amount : ℕ} {oper : Operand}
    (hlabel : label.id < s.labels) (hword : isZeroWord (fromBytes amount I.ctl.csize) = false) :
    EntrySpec I c label amount (.dynamic oper) s (bigAllocation I c (fromBytes amount I.ctl.csize) oper s).1
      (bigAllocation I c (fromBytes amount I.ctl.csize) oper s).2 := by
  have hne : amount % 2 ^ I.ctl.csize ≠ 0 :=
    of_decide_eq_false (show decide (amount % 2 ^ I.ctl.csize = 0) = false from hword)
  rw [bigAllocation_eq I c hword]
  dsimp only
  set s₁ : InsertState := { s with vars := s.vars + 2 } with hs₁
  have hgrow₁ : Grow s s₁ := ⟨le_rfl, Nat.le_add_right _ 2, [], by simp [hs₁]⟩
  set bytes : Operand := .var ⟨s.vars⟩ (csizeTy I.ctl.csize) with hbytes
  obtain ⟨hbody, hltb, hmem⟩ := body_mkChecks (I := I) (s := s₁) c (.large bytes)
  have hgrow₂ := grow_mkChecks (I := I) (s := s₁) c (.large bytes)
  have htl₂ := tooLarge_mkChecks (I := I) (s := s₁) c (.large bytes)
  have hlarge : LimitCheck.large bytes ≠ .zero := fun h => by cases h
  have hfirst := first_mkChecks (I := I) (s := s₁) c hlarge
  have hok₂ : TooLargeOk (mkChecks I c (.large bytes) s₁).2 := fun l hl => by
    obtain ⟨b, hb, hrest⟩ := hs l (htl₂ ▸ hl)
    exact ⟨b, hgrow₂.mem hb, hrest⟩
  have hleads : ∀ {code : Label → Option Block} {Body : Label → Prop} {σ : Machine I.ctl.csize} {n need hi : ℕ},
      σ.Ok → n ≤ s₁.vars → Holds code (mkChecks I c (.large bytes) s₁).2 →
        Body (mkChecks I c (.large bytes) s₁).1.2 → (mkChecks I c (.large bytes) s₁).2.labels ≤ hi →
          Only Body (mkChecks I c (.large bytes) s₁).1.2 s₁.labels hi → (LimitCheck.large bytes).Covers n σ need →
            Chain code Body (mkChecks I c (.large bytes) s₁).1.2
              (Good n need c.needsStackCheck c.needsSignalCheck σ) n σ (mkChecks I c (.large bytes) s₁).1.1 :=
    mkChecks_leads
  generalize mkChecks I c (.large bytes) s₁ = r₂ at *
  obtain ⟨hgrow₃, hok₃, htl₃, hnew⟩ := heapCheckTooLarge_spec hok₂
  generalize heapCheckTooLarge r₂.2 = r₃ at *
  have hle₂ := hgrow₂.labels
  have hle₃ := hgrow₃.labels
  have hlabels₁ : s₁.labels = s.labels := rfl
  have hbid : r₂.1.2.id = s.labels + 2 := by rw [hbody]
  refine ⟨hgrow₁.trans (hgrow₂.trans hgrow₃), hok₃, fun l hl => ?_, fun l hl => ?_, .inr ⟨?_, ?_, ?_⟩, ?_⟩
  · obtain rfl := Option.some.inj (htl₃.symm.trans hl)
    obtain h | ⟨h, heq, h'⟩ := hnew
    · exact .inl (htl₂ ▸ h)
    · refine .inr ⟨htl₂ ▸ h, ?_, ?_, fun heq' => ?_⟩
      · rw [heq]
        exact hle₂
      · rw [heq]
        exact h'
      · have := congrArg Label.id heq'
        rw [heq, hbid] at this
        simp only at this
        omega
  · obtain h | ⟨h, -⟩ := hnew
    · rw [htl₃, ← h, htl₂, hs₁]
      exact hl
    · rw [htl₂] at h
      have : s.tooLarge = none := h
      rw [this] at hl
      cases hl
  · dsimp only
    omega
  · dsimp only
    omega
  · dsimp only
    rw [hbody]
    exact hgrow₃.mem hmem
  · intro code Body b hcode hb hstmts htr hd honly hlabelBody htlBody n hn hoper
    dsimp only at hstmts htr
    have hoper := hoper oper rfl
    have hcode₂ : Holds code r₂.2 := hgrow₃.holds hcode
    have hnot : ¬ Body label := fun h => by
      have := congrArg Label.id (hlabelBody h)
      dsimp only at this
      omega
    have htoo : TooLarge code Body r₃.1 := by
      obtain ⟨b', hb', hb'l, hshape⟩ := hok₃ _ htl₃
      exact ⟨htlBody _ htl₃, b', hb'l ▸ hcode _ hb', hshape⟩
    have hexec : ∀ {σ ρ : Machine I.ctl.csize}, ExecAll b.statements σ ρ → Same n σ ρ ∧
        ρ.vars ⟨s.vars⟩ = σ.value (wordOper (fromBytes amount I.ctl.csize)) + σ.value oper ∧
        ρ.vars ⟨s.vars + 1⟩ = bit (2 ^ I.ctl.csize ≤ amount % 2 ^ I.ctl.csize + (σ.value oper).toNat) := by
      intro σ ρ h
      rw [hstmts] at h
      have := execAll_add hn (Nat.le_succ_of_le hn) (by simp) (by simp [wordOper, Operand.vars]) hoper h
      rwa [fromBytes_toNat] at this
    refine ⟨fun σ hok hfit hsum => ?_, fun σ hok hsum => ⟨hnot, ?_, fun c' hc' => ?_⟩, fun σ hok _ hsum => ?_⟩
    · refine leads_test hnot hb htr fun ρ hρ => ?_
      obtain ⟨hsame, hx, hy⟩ := hexec hρ
      have hsum' : amount + (σ.value oper).toNat < 2 ^ I.ctl.csize := by
        have hmod := Nat.mod_eq_of_lt hfit
        by_contra hge
        exact hsum ⟨hne, by omega⟩
      refine ⟨fun _ c' hc' hbc => ?_, fun h1 => ?_⟩
      · have hρok : ρ.Ok := ⟨hsame.field ▸ hok.frontier_pos, hsame.field ▸ hok.frontier_le, hsame.field ▸ hok.limit⟩
        have hcover : (LimitCheck.large bytes).Covers (s.vars + 1) ρ (amount + (σ.value oper).toNat) := by
          refine ⟨by simp [hbytes, Operand.vars], ?_⟩
          rw [hbytes, Machine.value, hx, BitVec.toNat_add, fromBytes_toNat, Nat.mod_eq_of_lt hfit,
            Nat.mod_eq_of_lt hsum']
        have hchain := hleads hρok (Nat.le_succ _) hcode₂ hd le_rfl (fun l hlo hhi => honly l hlo (by omega)) hcover
          ρ .refl c' hc' hbc
        exact ⟨hchain.1, hchain.2.of_same hsame (Nat.le_succ_of_le hn)⟩
      · have hbit : ρ.vars ⟨s.vars + 1⟩ = 1 := h1
        rw [hy, bit_eq_one hok.width_pos, decide_eq_true_eq, Nat.mod_eq_of_lt hfit] at hbit
        omega
    · obtain ⟨ρ, hρ⟩ := exists_execAll_add σ ⟨s.vars⟩ ⟨s.vars + 1⟩ (csizeTy I.ctl.csize) boolTy
        (wordOper (fromBytes amount I.ctl.csize)) oper
      rw [← hstmts] at hρ
      have hy := (hexec hρ).2.2
      rw [show decide _ = true from decide_eq_true hsum.2] at hy
      exact ⟨(r₃.1, ρ), hnot, b, ρ, hb, hρ, htr ▸ go_true hy⟩
    · obtain ⟨-, b', ρ, hb', hρ, hgo⟩ := hc'
      obtain rfl := Option.some.inj (hb.symm.trans hb')
      rw [htr] at hgo
      obtain ⟨-, ⟨h0, -⟩ | ⟨-, heq⟩⟩ := go_ifBoolE hgo
      · have hbit : ρ.vars ⟨s.vars + 1⟩ = 0 := h0
        rw [(hexec hρ).2.2, bit_eq_zero hok.width_pos, decide_eq_false_iff_not] at hbit
        exact absurd hsum.2 hbit
      · rw [heq]
        exact htoo
    · obtain ⟨ρ, hρ⟩ := exists_execAll_add σ ⟨s.vars⟩ ⟨s.vars + 1⟩ (csizeTy I.ctl.csize) boolTy
        (wordOper (fromBytes amount I.ctl.csize)) oper
      rw [← hstmts] at hρ
      have hy := (hexec hρ).2.2
      rw [show decide _ = false from decide_eq_false fun h => hsum ⟨hne, h⟩] at hy
      exact ⟨(r₂.1.1, ρ), ⟨hnot, b, ρ, hb, hρ, htr ▸ go_false hy⟩, not_tooLarge_of_test hcode₂ hfirst⟩

/-- Blocks that need no check stay as they are. -/
theorem unchecked_spec (hs : TooLargeOk s) {c : Checked} {label : Label} {bytes : ℕ}
    (hstack : c.needsStackCheck = false) (hsignal : c.needsSignalCheck = false) :
    EntrySpec I c label 0 (.static bytes) s ⟨c.statements, c.transfer, label⟩ s := by
  refine ⟨Grow.refl s, hs, fun l hl => .inl hl, fun l hl => hl, .inl ⟨rfl, rfl, rfl⟩, ?_⟩
  intro code Body b _ _ _ _ hd _ _ _ n _ _
  refine ⟨fun σ hok _ _ => leads_body hd ⟨?_, ?_, ?_, fun _ _ => rfl⟩, fun σ _ h => h.elim, fun σ _ h _ => ?_⟩
  · simpa [dynamicBytes] using hok.frontier_le
  · simp [hstack]
  · simp [hsignal]
  · have := Nat.two_pow_pos I.ctl.csize
    omega

/-- The limit check for a static amount covers it. -/
theorem covers_static {amount bytes : ℕ} {σ : Machine w} (hfit : amount < 2 ^ w) :
    (if amount = 0 then LimitCheck.zero
      else if amount ≤ limitSlop then .small
      else .large (wordOper (fromBytes amount w))).Covers n σ (amount + dynamicBytes (.static bytes) σ) := by
  rw [show dynamicBytes (.static bytes) σ = 0 from rfl, Nat.add_zero]
  split
  · rename_i h
    exact h
  · split
    · rename_i h
      exact h
    · exact ⟨by simp [wordOper, Operand.vars], by rw [fromBytes_toNat, Nat.mod_eq_of_lt hfit]⟩

/-- **The checks of one block.** -/
theorem entryOf_spec (hs : TooLargeOk s) (c : Checked) (label : Label) (amount : ℕ) (allocated : BytesAllocated)
    (hlabel : label.id < s.labels) :
    EntrySpec I c label amount allocated s (entryOf I c label amount allocated s).1
      (entryOf I c label amount allocated s).2 := by
  cases allocated with
  | dynamic oper =>
    cases hword : isZeroWord (fromBytes amount I.ctl.csize) with
    | false => exact bigAllocation_spec hs hlabel hword
    | true =>
      have hzero : amount % 2 ^ I.ctl.csize = 0 :=
        of_decide_eq_true (show decide (amount % 2 ^ I.ctl.csize = 0) = true from hword)
      have heq : entryOf I c label amount (.dynamic oper) s = gotoChecks I c (.large oper) s := by
        simp only [entryOf, bigAllocation, hword]
        rfl
      rw [heq]
      refine gotoChecks_spec hs hlabel (by simp) (fun σ h => h.1 hzero) fun n σ hfit hoper => ⟨hoper oper rfl, ?_⟩
      rw [Nat.mod_eq_of_lt hfit] at hzero
      simp [hzero, dynamicBytes]
  | static bytes =>
    by_cases hnone : amount = 0 ∧ c.needsSignalCheck = false ∧ c.needsStackCheck = false
    · obtain ⟨rfl, hsignal, hstack⟩ := hnone
      have heq : entryOf I c label 0 (.static bytes) s = (⟨c.statements, c.transfer, label⟩, s) := by
        simp only [entryOf, hsignal, hstack]
        rfl
      rw [heq]
      exact unchecked_spec hs hstack hsignal
    · have hzero : (if amount = 0 then LimitCheck.zero
            else if amount ≤ limitSlop then .small
            else .large (wordOper (fromBytes amount I.ctl.csize))) = .zero → amount = 0 := fun h => by
        split at h
        · assumption
        · split at h <;> cases h
      have heq : entryOf I c label amount (.static bytes) s =
          gotoChecks I c (if amount = 0 then LimitCheck.zero
            else if amount ≤ limitSlop then .small
            else .large (wordOper (fromBytes amount I.ctl.csize))) s := by
        simp only [entryOf]
        generalize (if amount = 0 then LimitCheck.zero
          else if amount ≤ limitSlop then .small
          else .large (wordOper (fromBytes amount I.ctl.csize))) = lc at hzero ⊢
        cases lc with
        | zero =>
          cases hsignal : c.needsSignalCheck
          · cases hstack : c.needsStackCheck
            · exact absurd ⟨hzero rfl, hsignal, hstack⟩ hnone
            · rfl
          · rfl
        | small => rfl
        | large _ => rfl
      rw [heq]
      exact gotoChecks_spec hs hlabel hzero (fun σ h => h) fun n σ hfit _ => covers_static hfit

end MLton.Rssa.InsertChecks
