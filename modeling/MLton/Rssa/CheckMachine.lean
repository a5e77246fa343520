import Mathlib.Data.BitVec
import MLton.Rssa.InsertFunction

/-!
# Rssa/CheckMachine — what the checks do

A machine for the blocks that `insertFunction` makes: words of the width of `csize`, the fields of the runtime state,
and the primitives that checks use.  `GC_collect` is known by what it promises; the program does not see it move
objects.

* `Machine.Ok` — what the runtime keeps of its fields;
* `Leads` — what holds where control gets to the statements of a block;
* `leads_test` — the rule for a block that tests.
-/

namespace MLton.Rssa.InsertChecks

variable {w : ℕ}

/-- The state of a run: variables, the fields of the runtime state, what other operands read, and how often
`GC_collect` has been called. -/
structure Machine (w : ℕ) where
  vars : Var → BitVec w
  field : GCField → BitVec w
  memory : Operand → BitVec w
  collections : ℕ

/-- The value of an operand. -/
def Machine.value (σ : Machine w) : Operand → BitVec w
  | .cast z _ => σ.value z
  | .const (.word x) => BitVec.ofNat w x.value
  | .const .null => 0
  | .runtime f => σ.field f
  | .var x _ => σ.vars x
  | z => σ.memory z

/-- A boolean. -/
def bit (b : Bool) : BitVec w := if b then 1 else 0

/-- The primitives, on words without a sign. -/
def CheckPrim.apply : CheckPrim → BitVec w → BitVec w → BitVec w
  | cpointerDiff, a, b => a - b
  | cpointerEqual, a, b => bit (a = b)
  | cpointerLt, a, b => bit (a < b)
  | wordAdd, a, b => a + b
  | wordAddCheckP, a, b => bit (2 ^ w ≤ a.toNat + b.toNat)
  | wordLt, a, b => bit (a < b)

/-- The statements of checks.  A write to memory may change other operands that read it. -/
inductive Exec (σ : Machine w) : Statement → Machine w → Prop
  | prim (p : CheckPrim) (a b : Operand) (x : Var) (ty : Ty) : Exec σ (.primApp [a, b] (some (x, ty)) p.name)
      { σ with vars := Function.update σ.vars x (p.apply (σ.value a) (σ.value b)) }
  | move (dst src : Operand) (memory : Operand → BitVec w) (h : memory dst = σ.value src) :
      Exec σ (.move dst src) { σ with memory := memory }

/-- Statements one after the other. -/
def ExecAll : List Statement → Machine w → Machine w → Prop
  | [], σ, τ => τ = σ
  | s :: ss, σ, τ => ∃ ρ, Exec σ s ρ ∧ ExecAll ss ρ τ

/-- **What the runtime keeps**: the frontier is a pointer within the heap, and the limit is zero if a signal is
pending, and the end of the heap less the slop otherwise. -/
structure Machine.Ok (σ : Machine w) : Prop where
  frontier_pos : 0 < (σ.field .frontier).toNat
  frontier_le : (σ.field .frontier).toNat ≤ (σ.field .limitPlusSlop).toNat
  limit : σ.field .limit = 0 ∨ (σ.field .limit).toNat + limitSlop = (σ.field .limitPlusSlop).toNat

/-- **What `GC_collect (n)` promises**: the larger of `n` and the slop is free, and the stack is sufficient. -/
structure Collected (σ : Machine w) (n : ℕ) (τ : Machine w) : Prop where
  ok : τ.Ok
  free : (τ.field .frontier).toNat + max n limitSlop ≤ (τ.field .limitPlusSlop).toNat
  stack : (τ.field .stackTop).toNat ≤ (τ.field .stackLimit).toNat
  vars : τ.vars = σ.vars
  collections : τ.collections = σ.collections + 1

/-- The transfers of checks. -/
inductive Go (σ : Machine w) : Transfer → Label → Machine w → Prop
  | goto (l : Label) : Go σ (.goto [] l) l σ
  | case (s : Switch) (c : WordX) (l : Label) (hc : (c, l) ∈ s.cases) (h : σ.value s.test = BitVec.ofNat w c.value) :
      Go σ (.switch s) l σ
  | default (s : Switch) (l : Label) (hl : s.default = some l)
      (h : ∀ c ∈ s.cases, σ.value s.test ≠ BitVec.ofNat w c.1.value) : Go σ (.switch s) l σ
  | collect (amount force : Operand) (maySwitchThreads : Bool) (l : Label) (τ : Machine w)
      (h : Collected σ (σ.value amount).toNat τ) :
      Go σ (.ccall [.gcState, amount, force] (gcFunction maySwitchThreads) (some l)) l τ

/-- One block of the checks; a run of the checks ends where the statements of a block are, which `Body` tells. -/
def Step (code : Label → Option Block) (Body : Label → Prop) (c c' : Label × Machine w) : Prop :=
  ¬ Body c.1 ∧ ∃ b ρ, code c.1 = some b ∧ ExecAll b.statements c.2 ρ ∧ Go ρ b.transfer c'.1 c'.2

/-- Some blocks of the checks. -/
abbrev Reach (code : Label → Option Block) (Body : Label → Prop) : Label × Machine w → Label × Machine w → Prop :=
  Relation.ReflTransGen (Step code Body)

variable {code : Label → Option Block} {Body : Label → Prop} {d l : Label} {Q : Machine w → Prop}
  {σ τ ρ : Machine w} {a b : Operand} {x : Var} {ty : Ty} {p : CheckPrim}

theorem CheckPrim.name_injective : Function.Injective CheckPrim.name := by
  intro p q h
  cases p <;> cases q <;> first | rfl | simp [CheckPrim.name] at h

theorem exec_prim (h : Exec σ (.primApp [a, b] (some (x, ty)) p.name) τ) :
    τ = { σ with vars := Function.update σ.vars x (p.apply (σ.value a) (σ.value b)) } := by
  generalize hs : Statement.primApp [a, b] (some (x, ty)) p.name = s at h
  cases h with
  | prim q a' b' x' ty' =>
    simp only [Statement.primApp.injEq, List.cons.injEq, and_true, Option.some.injEq, Prod.mk.injEq] at hs
    obtain ⟨⟨rfl, rfl⟩, ⟨rfl, rfl⟩, hname⟩ := hs
    rw [CheckPrim.name_injective hname]
  | move => cases hs

theorem bit_eq_one (hw : 0 < w) {c : Bool} : (bit c : BitVec w) = 1 ↔ c = true := by
  cases c <;> simp [bit, hw.ne']

theorem bit_eq_zero (hw : 0 < w) {c : Bool} : (bit c : BitVec w) = 0 ↔ c = false := by
  cases c <;> simp [bit, hw.ne']

theorem Machine.Ok.width_pos (h : σ.Ok) : 0 < w := by
  rcases Nat.eq_zero_or_pos w with rfl | hw
  · have h0 := h.frontier_pos
    have := (σ.field .frontier).isLt
    omega
  · exact hw

/-! ## Where control gets to the statements -/

/-- From a block, control gets to the statements at `d` only, and where it does `Q` holds. -/
def Leads (code : Label → Option Block) (Body : Label → Prop) (d : Label) (Q : Machine w → Prop) (l : Label)
    (σ : Machine w) : Prop :=
  ∀ c, Reach code Body (l, σ) c → Body c.1 → c.1 = d ∧ Q c.2

/-- The statements themselves. -/
theorem leads_body (hd : Body d) (hQ : Q σ) : Leads code Body d Q d σ := fun c hc _ => by
  obtain rfl | ⟨_, hstep, _⟩ := Relation.ReflTransGen.cases_head hc
  · exact ⟨rfl, hQ⟩
  · exact absurd hd hstep.1

/-- One step. -/
theorem leads_of_step (hl : ¬ Body l) (h : ∀ c, Step code Body (l, σ) c → Leads code Body d Q c.1 c.2) :
    Leads code Body d Q l σ := fun c hc hb => by
  obtain rfl | ⟨c', hstep, hreach⟩ := Relation.ReflTransGen.cases_head hc
  · exact absurd hb hl
  · exact h c' hstep c hreach hb

/-- A goto. -/
theorem leads_goto {blk : Block} (hl : ¬ Body l) (hcode : code l = some blk) {l' : Label}
    (htr : blk.transfer = .goto [] l') (h : ∀ ρ, ExecAll blk.statements σ ρ → Leads code Body d Q l' ρ) :
    Leads code Body d Q l σ := by
  refine leads_of_step hl fun c hc => ?_
  obtain ⟨-, b, ρ, hb, hexec, hgo⟩ := hc
  obtain rfl := Option.some.inj (hcode.symm.trans hb)
  rw [htr] at hgo
  generalize hc1 : c.1 = l₁ at hgo
  generalize hc2 : c.2 = τ at hgo
  cases hgo
  exact h _ hexec

/-- What a test goes to. -/
theorem go_ifBoolE {test : Operand} {expect : Option Bool} {br : Branches} (h : Go σ (ifBoolE test expect br) l τ) :
    τ = σ ∧ ((σ.value test = 0 ∧ l = br.falsee) ∨ (σ.value test = 1 ∧ l = br.truee)) := by
  generalize ht : ifBoolE test expect br = t at h
  unfold ifBoolE at ht
  cases h with
  | case s c l hc hv =>
    cases ht
    refine ⟨rfl, ?_⟩
    simp only [List.mem_cons, Prod.mk.injEq, List.not_mem_nil, or_false] at hc
    obtain ⟨rfl, rfl⟩ | ⟨rfl, rfl⟩ := hc
    · exact .inl ⟨hv, rfl⟩
    · exact .inr ⟨hv, rfl⟩
  | default s l hl _ =>
    cases ht
    cases hl
  | _ => cases ht

/-- **A block that tests.** -/
theorem leads_test {blk : Block} (hl : ¬ Body l) (hcode : code l = some blk) {test : Operand}
    {expect : Option Bool} {br : Branches} (htr : blk.transfer = ifBoolE test expect br)
    (h : ∀ ρ, ExecAll blk.statements σ ρ →
      (ρ.value test = 0 → Leads code Body d Q br.falsee ρ) ∧ (ρ.value test = 1 → Leads code Body d Q br.truee ρ)) :
    Leads code Body d Q l σ := by
  refine leads_of_step hl fun c hc => ?_
  obtain ⟨-, b, ρ, hb, hexec, hgo⟩ := hc
  obtain rfl := Option.some.inj (hcode.symm.trans hb)
  rw [htr] at hgo
  obtain ⟨heq, ⟨hv, hl'⟩ | ⟨hv, hl'⟩⟩ := go_ifBoolE hgo <;> rw [heq, hl']
  · exact (h ρ hexec).1 hv
  · exact (h ρ hexec).2 hv

/-- A block that collects. -/
theorem leads_collect {blk : Block} (hl : ¬ Body l) (hcode : code l = some blk) {amount force : Operand}
    {maySwitchThreads : Bool} {l' : Label} (hstmts : blk.statements = [])
    (htr : blk.transfer = .ccall [.gcState, amount, force] (gcFunction maySwitchThreads) (some l'))
    (h : ∀ τ, Collected σ (σ.value amount).toNat τ → Leads code Body d Q l' τ) : Leads code Body d Q l σ := by
  refine leads_of_step hl fun c hc => ?_
  obtain ⟨-, b, ρ, hb, hexec, hgo⟩ := hc
  obtain rfl := Option.some.inj (hcode.symm.trans hb)
  rw [hstmts] at hexec
  obtain rfl : ρ = σ := hexec
  rw [htr] at hgo
  generalize hc1 : c.1 = l₁ at hgo
  generalize hc2 : c.2 = τ at hgo
  generalize ht : Transfer.ccall [Operand.gcState, amount, force] (gcFunction maySwitchThreads) (some l') = t at hgo
  cases hgo with
  | collect _ _ _ _ _ hcol =>
    simp only [Transfer.ccall.injEq, List.cons.injEq, and_true, true_and, Option.some.injEq] at ht
    obtain ⟨⟨rfl, rfl⟩, -, rfl⟩ := ht
    exact h _ hcol
  | _ => cases ht

/-! ## What the checks leave as it is -/

/-- The two states differ in variables from `n` on only. -/
structure Same (n : ℕ) (σ τ : Machine w) : Prop where
  field : τ.field = σ.field
  memory : τ.memory = σ.memory
  collections : τ.collections = σ.collections
  vars : ∀ x : Var, x.id < n → τ.vars x = σ.vars x

variable {n : ℕ}

theorem Same.refl : Same n σ σ := ⟨rfl, rfl, rfl, fun _ _ => rfl⟩

theorem Same.update (h : Same n σ τ) (hx : n ≤ x.id) (v : BitVec w) :
    Same n σ { τ with vars := Function.update τ.vars x v } := by
  refine ⟨h.field, h.memory, h.collections, fun y hy => ?_⟩
  have hne : y ≠ x := fun heq => by
    rw [heq] at hy
    omega
  simpa [Function.update_of_ne hne] using h.vars y hy

/-- An operand of older variables keeps its value. -/
theorem Same.value (h : Same n σ τ) : ∀ {z : Operand}, (∀ x ∈ z.vars, x.id < n) → τ.value z = σ.value z
  | .cast z _, hz => h.value (z := z) hz
  | .const (.word _), _ => rfl
  | .const .null, _ => rfl
  | .runtime f, _ => congrFun h.field f
  | .var x _, hz => h.vars x (hz x (List.mem_singleton.mpr rfl))
  | .const (.cSymbol _), _ => congrFun h.memory _
  | .const (.intInf _), _ => congrFun h.memory _
  | .const (.real _), _ => congrFun h.memory _
  | .const (.wordVector ..), _ => congrFun h.memory _
  | .gcState, _ => congrFun h.memory _
  | .offset .., _ => congrFun h.memory _
  | .objptrTycon _, _ => congrFun h.memory _
  | .sequenceOffset .., _ => congrFun h.memory _

end MLton.Rssa.InsertChecks
