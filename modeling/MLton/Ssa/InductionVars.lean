import MLton.Ssa.TestsSound

/-!
# Ssa/InductionVars — what a loop adds to its argument, and where it starts

`varChain` follows the value that is passed back to the header from addition to addition, to the argument
of the header.  `checkPrim` takes a subtraction for an addition of the negated constant whichever operand
the constant is, which is right if it is the second one.  `findConstantStart` merges what the edges into
the loop pass, and each merge reverses the vector.
-/

namespace MLton.Ssa.LoopUnroll

open RedundantTests (globalVars GlobalsHold word_of_const)

/-! ## The constant that a loop adds -/

/-- `loadGlobal`: the constant a global is bound to. -/
def loadGlobal (globals : List Statement) (x : Var) (signed : Bool) : Option ℤ :=
  match globals.find? (·.var = some x) with
  | some s =>
    match s.exp with
    | .const (.word size value) => some (if signed then (BitVec.ofNat size value).toInt else value)
    | _ => none
  | none => none

section

variable (loadVar : Var → Bool → Option ℤ)

/-- `varConst`; `Vector.sub` raises `Subscript` if there are not two operands. -/
def varConst (args : List Var) (signed : Bool) : Option (Var × ℤ × Bool) :=
  match args with
  | a1 :: a2 :: _ =>
    match loadVar a1 signed, loadVar a2 signed with
    | some x, none => some (a2, x, false)
    | none, some x => some (a1, x, true)
    | _, _ => none
  | _ => none

/-- `checkPrim`. -/
def checkPrim (args : List Var) (prim : Prim) : Option (Var × ℤ) :=
  match prim with
  | .wordAdd _ => (varConst loadVar args false).map fun r => (r.1, r.2.1)
  | .wordSub _ => (varConst loadVar args false).map fun r => (r.1, -r.2.1)
  | _ => none

/-- The `assignments` of `varChain` in one block. -/
def assignments (endVar : Var) (b : Block) : List (Var × ℤ) :=
  b.statements.filterMap fun s =>
    if s.var = some endVar then
      match s.exp with
      | .primApp prim _ _ args => checkPrim loadVar args prim
      | _ => none
    else none

/-- `endVarAssign`; none when it fails. -/
def endVarAssign (endVar : Var) : List Block → Option (Option (Var × ℤ))
  | [] => some none
  | b :: blocks =>
    match assignments loadVar endVar b with
    | [] => endVarAssign endVar blocks
    | [a] => some (some a)
    | _ => none

/-- `varChain`; none when it fails, or takes more than `n` steps. -/
def varChain (origVar : Var) (blocks : List Block) : ℕ → Var → ℤ → Option (Option ℤ)
  | 0, _, _ => none
  | n + 1, endVar, total =>
    if origVar = endVar then some (some total)
    else do
      match ← endVarAssign loadVar endVar blocks with
      | none => some none
      | some (nextVar, x) => varChain origVar blocks n nextVar (x + total)

end

/-! ## The constant that a loop starts from -/

/-- What an edge passes: for each argument its unsigned and its signed value, if it is a constant. -/
abbrev Entry := List (Option (ℤ × ℤ))

/-- The merge of one argument. -/
def mergeArg : Option (ℤ × ℤ) → Option (ℤ × ℤ) → Option (ℤ × ℤ)
  | some (x1, x1'), some (x2, _) => if x1 = x2 then some (x1, x1') else none
  | _, _ => none

/-- `Vector.fold2` of the merge, which conses. -/
def mergeEntry (v1 v2 : Entry) : Entry :=
  (v1.zip v2).foldl (fun lst a => mergeArg a.1 a.2 :: lst) []

/-- `findConstantStart`. -/
def findConstantStart (entryArgs : List Entry) : Entry :=
  match entryArgs with
  | [] => []
  | entry :: _ => (entryArgs.foldl (fun acc v => mergeEntry v acc) entry).reverse

/-! ## One addition -/

/-- What additions and subtractions of words compute; none from operands that are no words of the size. -/
def arith : Prim → List Val → Option Val
  | .wordAdd n, [v, w] => do pure (.word n ((← v.asWord n) + (← w.asWord n)))
  | .wordSub n, [v, w] => do pure (.word n ((← v.asWord n) - (← w.asWord n)))
  | _, _ => none

/-- The world adds and subtracts words. -/
structure Computes (W : World) : Prop where
  add : ∀ {t n targs mode vs}, W.prim t (.wordAdd n) targs mode vs = arith (.wordAdd n) vs
  sub : ∀ {t n targs mode vs}, W.prim t (.wordSub n) targs mode vs = arith (.wordSub n) vs

/-- The constants are what they are loaded as. -/
def Loads (loadVar : Var → Bool → Option ℤ) (ρ : Env) : Prop :=
  ∀ x c, loadVar x false = some c → ∀ n (a : BitVec n), ρ x = some (.word n a) → a = .ofInt n c

/-- The primitive does not subtract from a constant, of words of more than one bit. -/
def ConstLast (loadVar : Var → Bool → Option ℤ) (prim : Prim) (args : List Var) : Prop :=
  ∀ n a, prim = .wordSub n → args.head? = some a → loadVar a false = none ∨ n ≤ 1

/-- One variable is the other one plus a constant. -/
def Adds (ρ : Env) (y x : Var) (c : ℤ) : Prop :=
  ∃ n, ∃ a : BitVec n, ρ y = some (.word n a) ∧ ρ x = some (.word n (a + .ofInt n c))

variable {loadVar : Var → Bool → Option ℤ} {ρ : Env} {args : List Var} {prim : Prim} {vs : List Val}
  {v : Val} {x y a1 a2 : Var} {c : ℤ} {signed : Bool}

theorem arith_eq_some (h : arith prim vs = some v) : ∃ n, ∃ a b : BitVec n,
    vs = [.word n a, .word n b] ∧
      (prim = .wordAdd n ∧ v = .word n (a + b) ∨ prim = .wordSub n ∧ v = .word n (a - b)) := by
  unfold arith at h
  split at h
  · next n v w =>
    obtain ⟨a, ha, h⟩ := Option.bind_eq_some_iff.mp h
    obtain ⟨b, hb, h⟩ := Option.bind_eq_some_iff.mp h
    rw [Val.asWord_eq_some.mp ha, Val.asWord_eq_some.mp hb]
    exact ⟨n, a, b, rfl, .inl ⟨rfl, (Option.some.inj h).symm⟩⟩
  · next n v w =>
    obtain ⟨a, ha, h⟩ := Option.bind_eq_some_iff.mp h
    obtain ⟨b, hb, h⟩ := Option.bind_eq_some_iff.mp h
    rw [Val.asWord_eq_some.mp ha, Val.asWord_eq_some.mp hb]
    exact ⟨n, a, b, rfl, .inr ⟨rfl, (Option.some.inj h).symm⟩⟩
  · cases h

theorem all_pair {u w : Val} (h : ρ.all args = some [u, w]) :
    ∃ a1 a2, args = [a1, a2] ∧ ρ a1 = some u ∧ ρ a2 = some w := by
  match args, Env.all_length h with
  | [a1, a2], _ =>
    obtain ⟨_, _, heq, hu, hus⟩ := Env.all_cons.mp h
    obtain ⟨rfl, rfl⟩ := List.cons.inj heq
    exact ⟨a1, a2, rfl, hu, Env.all_singleton.mp hus⟩

/-- Which operand the constant is. -/
theorem varConst_eq_some {b : Bool} (h : varConst loadVar [a1, a2] signed = some (y, c, b)) :
    loadVar y signed = none ∧
      (y = a2 ∧ loadVar a1 signed = some c ∧ b = false ∨ y = a1 ∧ loadVar a2 signed = some c ∧ b = true) := by
  simp only [varConst] at h
  split at h
  · next hc hnone =>
    obtain ⟨rfl, rfl, rfl⟩ := by simpa using h
    exact ⟨hnone, .inl ⟨rfl, hc, rfl⟩⟩
  · next hnone hc =>
    obtain ⟨rfl, rfl, rfl⟩ := by simpa using h
    exact ⟨hnone, .inr ⟨rfl, hc, rfl⟩⟩
  · cases h

theorem checkPrim_eq_some (h : checkPrim loadVar [a1, a2] prim = some (y, c)) : ∃ x,
    loadVar y false = none ∧ (y = a2 ∧ loadVar a1 false = some x ∨ y = a1 ∧ loadVar a2 false = some x) ∧
      ((∃ n, prim = .wordAdd n) ∧ c = x ∨ (∃ n, prim = .wordSub n) ∧ c = -x) := by
  unfold checkPrim at h
  split at h
  · next n =>
    obtain ⟨⟨y', x, b⟩, hvc, heq⟩ := Option.map_eq_some_iff.mp h
    obtain ⟨rfl, rfl⟩ := Prod.mk.inj heq
    obtain ⟨hnone, hoperand⟩ := varConst_eq_some hvc
    refine ⟨x, hnone, ?_, .inl ⟨⟨n, rfl⟩, rfl⟩⟩
    exact hoperand.imp (fun h => ⟨h.1, h.2.1⟩) fun h => ⟨h.1, h.2.1⟩
  · next n =>
    obtain ⟨⟨y', x, b⟩, hvc, heq⟩ := Option.map_eq_some_iff.mp h
    obtain ⟨rfl, rfl⟩ := Prod.mk.inj heq
    obtain ⟨hnone, hoperand⟩ := varConst_eq_some hvc
    refine ⟨x, hnone, ?_, .inr ⟨⟨n, rfl⟩, rfl⟩⟩
    exact hoperand.imp (fun h => ⟨h.1, h.2.1⟩) fun h => ⟨h.1, h.2.1⟩
  · cases h

/-- A primitive that `checkPrim` takes has computed what `arith` says. -/
theorem Computes.eval {W : World} {targs : List Ty} {mode : Option Mode} {t t' : Trace} (hW : Computes W)
    (hcheck : checkPrim loadVar args prim = some (y, c))
    (heval : (Exp.primApp prim targs mode args).eval W ρ t = (.value v, t')) :
    ∃ vs, ρ.all args = some vs ∧ arith prim vs = some v := by
  cases hvs : ρ.all args with
  | none => simp [Exp.eval, hvs] at heval
  | some vs =>
    refine ⟨vs, rfl, ?_⟩
    have hprim : W.prim t prim targs mode vs = arith prim vs := by
      unfold checkPrim at hcheck
      split at hcheck
      · exact hW.add
      · exact hW.sub
      · cases hcheck
    simp only [Exp.eval, hvs, World.primApp, hprim, Prod.mk.injEq] at heval
    cases harith : arith prim vs with
    | none => simp [harith] at heval
    | some w =>
      rw [harith] at heval
      exact congrArg some (Effects.Result.value.inj heval.1)

/-- Words of at most one bit are their own negations. -/
theorem sub_comm_of_le_one {n : ℕ} (hn : n ≤ 1) (a b : BitVec n) : a - b = b - a := by
  obtain rfl | rfl : n = 0 ∨ n = 1 := by omega
  all_goals
    revert a b
    decide

/-- **One addition is reported right**, unless it is a subtraction from the constant. -/
theorem checkPrim_adds (hload : Loads loadVar ρ) (hlast : ConstLast loadVar prim args)
    (hcheck : checkPrim loadVar args prim = some (y, c)) (hvs : ρ.all args = some vs)
    (h : arith prim vs = some v) :
    ∃ n, ∃ a : BitVec n, ρ y = some (.word n a) ∧ v = .word n (a + .ofInt n c) := by
  obtain ⟨n, a, b, rfl, hprim⟩ := arith_eq_some h
  obtain ⟨a1, a2, rfl, ha, hb⟩ := all_pair hvs
  obtain ⟨x, -, hoperand, hop⟩ := checkPrim_eq_some hcheck
  obtain ⟨rfl, hx⟩ | ⟨rfl, hx⟩ := hoperand
  · -- The constant is the first operand.
    obtain rfl := hload _ _ hx n a ha
    refine ⟨n, b, hb, ?_⟩
    obtain ⟨rfl, rfl⟩ | ⟨rfl, rfl⟩ := hprim
    · obtain ⟨-, rfl⟩ := hop.resolve_right (by simp)
      rw [BitVec.add_comm]
    · obtain ⟨-, rfl⟩ := hop.resolve_left (by simp)
      have hn : n ≤ 1 := (hlast n a1 rfl rfl).resolve_left (by simp [hx])
      rw [sub_comm_of_le_one hn, BitVec.ofInt_neg, BitVec.sub_eq_add_neg]
  · obtain rfl := hload _ _ hx n b hb
    refine ⟨n, a, ha, ?_⟩
    obtain ⟨rfl, rfl⟩ | ⟨rfl, rfl⟩ := hprim
    · obtain ⟨-, rfl⟩ := hop.resolve_right (by simp)
      rfl
    · obtain ⟨-, rfl⟩ := hop.resolve_left (by simp)
      rw [BitVec.ofInt_neg, BitVec.sub_eq_add_neg]

/-- The constants, and one variable. -/
def constEnv (loadVar : Var → Bool → Option ℤ) (n : ℕ) (b : BitVec n) : Env := fun x =>
  some (.word n ((loadVar x false).elim b (.ofInt n)))

theorem loads_constEnv {n : ℕ} {b : BitVec n} : Loads loadVar (constEnv loadVar n b) := by
  intro x c hx n' a ha
  obtain rfl := Val.size_of_word (Option.some.inj ha)
  have ha := Val.word_inj (Option.some.inj ha)
  rw [← ha, hx]
  rfl

/-- **When one addition is reported right**, whatever the other operand is. -/
theorem checkPrim_iff (hcheck : checkPrim loadVar [a1, a2] prim = some (y, c)) :
    (∀ ρ v, Loads loadVar ρ → (ρ.all [a1, a2]).bind (arith prim) = some v →
      ∃ n, ∃ a : BitVec n, ρ y = some (.word n a) ∧ v = .word n (a + .ofInt n c)) ↔
      ConstLast loadVar prim [a1, a2] := by
  constructor
  · rintro h n a rfl ha
    obtain rfl := Option.some.inj ha
    by_contra hno
    obtain ⟨hconst, hn⟩ := not_or.mp hno
    obtain ⟨x, hnone, hoperand, hop⟩ := checkPrim_eq_some hcheck
    obtain ⟨-, rfl⟩ := hop.resolve_left (by simp)
    obtain ⟨rfl, hx⟩ := hoperand.resolve_right fun hy => hconst (hy.1 ▸ hnone)
    -- The constant minus one more than it is minus one, and not one.
    have hv := h (constEnv loadVar n (.ofInt n x + 1)) (.word n (.ofInt n x - (.ofInt n x + 1)))
      loads_constEnv (by simp [Env.all, constEnv, hx, hnone, arith])
    obtain ⟨n', b, hb, hv⟩ := hv
    simp only [constEnv, hnone, Option.elim_none] at hb
    obtain rfl := Val.size_of_word hv
    obtain rfl := Val.word_inj (Option.some.inj hb)
    have heq := Val.word_inj hv
    rw [BitVec.ofInt_neg] at heq
    have htwo : (1 : BitVec n) + 1 = 0 := by grind
    have htoNat : 2 % 2 ^ n = 0 := by simpa [BitVec.toNat_add] using congrArg BitVec.toNat htwo
    have hpow : 2 ^ 2 ≤ 2 ^ n := Nat.pow_le_pow_right (by omega) (by omega)
    rw [Nat.mod_eq_of_lt (by omega)] at htoNat
    exact absurd htoNat (by omega)
  · intro hlast ρ v hload h
    obtain ⟨vs, hvs, h⟩ := Option.bind_eq_some_iff.mp h
    exact checkPrim_adds hload hlast hcheck hvs h

/-! ## The chain -/

/-- The chain goes from one variable to the next. -/
def Links (loadVar : Var → Bool → Option ℤ) (blocks : List Block) (x y : Var) : Prop :=
  ∃ b ∈ blocks, ∃ s ∈ b.statements, ∃ prim targs mode args c, s.var = some x ∧
    s.exp = .primApp prim targs mode args ∧ checkPrim loadVar args prim = some (y, c)

/-- No statement on the chain subtracts from a constant. -/
def ChainConstLast (loadVar : Var → Bool → Option ℤ) (blocks : List Block) (endVar : Var) : Prop :=
  ∀ x, Relation.ReflTransGen (Links loadVar blocks) endVar x → ∀ b ∈ blocks, ∀ s ∈ b.statements,
    ∀ prim targs mode args, s.var = some x → s.exp = .primApp prim targs mode args →
      ConstLast loadVar prim args

variable {blocks : List Block} {endVar : Var}

theorem ChainConstLast.next (h : ChainConstLast loadVar blocks x) (hxy : Links loadVar blocks x y) :
    ChainConstLast loadVar blocks y := fun z hyz => h z (.head hxy hyz)

theorem mem_assignments {b : Block} (h : (y, c) ∈ assignments loadVar x b) :
    ∃ s ∈ b.statements, ∃ prim targs mode args, s.var = some x ∧
      s.exp = .primApp prim targs mode args ∧ checkPrim loadVar args prim = some (y, c) := by
  obtain ⟨s, hs, h⟩ := List.mem_filterMap.mp h
  obtain ⟨hx, h⟩ := Option.ite_none_right_eq_some.mp h
  split at h
  · next prim targs mode args hexp => exact ⟨s, hs, prim, targs, mode, args, hx, hexp, h⟩
  · cases h

theorem endVarAssign_eq_some : ∀ {blocks : List Block}, endVarAssign loadVar x blocks = some (some (y, c)) →
    ∃ b ∈ blocks, (y, c) ∈ assignments loadVar x b
  | b :: blocks, h => by
      rw [endVarAssign] at h
      split at h
      · obtain ⟨b', hb', hmem⟩ := endVarAssign_eq_some h
        exact ⟨b', List.mem_cons_of_mem _ hb', hmem⟩
      · next a ha =>
        obtain rfl := Option.some.inj (Option.some.inj h)
        exact ⟨b, List.mem_cons_self, by simp [ha]⟩
      · cases h

theorem Adds.trans {z : Var} {d : ℤ} (h : Adds ρ z y d) (h' : Adds ρ y x c) : Adds ρ z x (c + d) := by
  obtain ⟨n, a, hz, hy⟩ := h
  obtain ⟨n', b, hy', hx⟩ := h'
  have heq := Option.some.inj (hy.symm.trans hy')
  obtain rfl := Val.size_of_word heq
  obtain rfl := Val.word_inj heq
  refine ⟨n, a, hz, ?_⟩
  rw [hx, BitVec.ofInt_add, BitVec.add_assoc, BitVec.add_comm (.ofInt n d)]

section Runs

/-- The activation is about to pass one variable back to a header, for another one. -/
def BackEdge (fr : Frame) (argVar loopVar : Var) : Prop :=
  ∃ (b header : Block) (args : List Var) (i : ℕ) (ty : Ty), fr.func.block? fr.label = some b ∧
    b.statements[fr.index]? = none ∧ b.transfer = .goto header.label args ∧
    fr.func.block? header.label = some header ∧ header.args[i]? = some (argVar, ty) ∧
    args[i]? = some loopVar

/-- In every run, what is passed back is the old value plus the constant. -/
def Increases (W : World) (G : Env) (p : Program) (f : Function) (argVar loopVar : Var) (s : ℤ) : Prop :=
  ∀ fr fr' stack stack' t t', p.Reaches W G (.running fr stack t) → fr.func = f →
    BackEdge fr argVar loopVar → (State.running fr stack t).step W p G = some (.running fr' stack' t') →
      ∀ size (old : BitVec size), fr.env argVar = some (.word size old) →
        fr'.env argVar = some (.word size (old + .ofInt size s))

variable {W : World} {gs : List Statement} {G : Env} {p : Program} {fr : Frame}

/-- The globals are loaded as what they are bound to. -/
theorem loads_globals (hG : GlobalsHold gs G) (hfr : ∀ x ∈ globalVars gs, fr.env x = G x) :
    Loads (loadGlobal gs) fr.env := by
  intro x c hx n a ha
  unfold loadGlobal at hx
  split at hx
  · next s hfind =>
    split at hx
    · next size value hexp =>
      have hvar : s.var = some x := by simpa using List.find?_some hfind
      have hs := List.mem_of_find?_eq_some hfind
      obtain ⟨v, hv, hconst⟩ := hG s hs x hvar
      rw [hfr x (List.mem_filterMap.mpr ⟨s, hs, hvar⟩), hv, hconst _ hexp] at ha
      obtain ⟨rfl, rfl⟩ := word_of_const ha
      obtain rfl := Option.some.inj hx
      simp
    · cases hx
  · cases hx

variable (hscoped : p.Scoped (globalVars gs)) (hW : Computes W) (hG : GlobalsHold gs G)

include hscoped hW hG

/-- **One link of the chain.** -/
theorem Links.adds (hfr : fr.Global W (globalVars gs) G p) (hblocks : blocks ⊆ fr.func.blocks)
    (hx : fr.func.InScope (globalVars gs) x (fr.label, fr.index))
    (hlast : ChainConstLast (loadGlobal gs) blocks x)
    (h : endVarAssign (loadGlobal gs) x blocks = some (some (y, c))) :
    Links (loadGlobal gs) blocks x y ∧ Adds fr.env y x c ∧
      fr.func.InScope (globalVars gs) y (fr.label, fr.index) := by
  obtain ⟨b, hb, hmem⟩ := endVarAssign_eq_some h
  obtain ⟨s, hs, prim, targs, mode, args, hvar, hexp, hcheck⟩ := mem_assignments hmem
  have hlink : Links (loadGlobal gs) blocks x y := ⟨b, hb, s, hs, prim, targs, mode, args, c, hvar, hexp, hcheck⟩
  have hf := hscoped.functions _ hfr.func
  obtain ⟨i, hi⟩ := List.getElem?_of_mem hs
  have hdef := Function.DefinedAs.of_statement (hf.block?_of_mem (hblocks hb)) hi hvar
  rw [hexp] at hdef
  obtain ⟨v, t, t', hv, heval⟩ := hfr.defined hdef hx
  obtain ⟨vs, hvs, harith⟩ := hW.eval hcheck heval
  have hy : y ∈ args := by
    obtain ⟨_, _, _, rfl, -⟩ := arith_eq_some harith
    obtain ⟨_, _, rfl, -, -⟩ := all_pair hvs
    obtain ⟨_, -, hoperand, -⟩ := checkPrim_eq_some hcheck
    obtain ⟨rfl, -⟩ | ⟨rfl, -⟩ := hoperand <;> simp
  obtain ⟨n, a, ha, rfl⟩ := checkPrim_adds (loads_globals hG hfr.globals)
    (hlast x .refl b hb s hs prim targs mode args hvar hexp) hcheck hvs harith
  exact ⟨hlink, ⟨n, a, ha, hv⟩, hf.inScope_trans hdef hx (hf.inScope_of_definedAs hdef hy)⟩

/-- **The chain**, by the number of links. -/
theorem varChain_adds (hfr : fr.Global W (globalVars gs) G p) (hblocks : blocks ⊆ fr.func.blocks)
    {origVar : Var} {s : ℤ} : ∀ {n : ℕ} {x : Var} {total : ℤ},
    fr.func.InScope (globalVars gs) x (fr.label, fr.index) → ChainConstLast (loadGlobal gs) blocks x →
    varChain (loadGlobal gs) origVar blocks n x total = some (some s) →
      origVar = x ∧ s = total ∨ Adds fr.env origVar x (s - total)
  | 0, _, _, _, _, h => absurd h nofun
  | n + 1, x, total, hx, hlast, h => by
      rw [varChain] at h
      split at h
      · next heq => exact .inl ⟨heq, (Option.some.inj (Option.some.inj h)).symm⟩
      · obtain ⟨assign, hassign, h⟩ := Option.bind_eq_some_iff.mp h
        cases assign with
        | none => cases h
        | some a =>
          obtain ⟨hlink, hadds, hy⟩ := Links.adds hscoped hW hG hfr hblocks hx hlast hassign
          right
          obtain ⟨rfl, rfl⟩ | hchain := varChain_adds hfr hblocks hy (hlast.next hlink) h
          · simpa using hadds
          · have := hchain.trans hadds
            convert this using 1
            ring

/-- **On every iteration**, if no link subtracts from a constant: what control passes back to the header is
the old value plus the constant. -/
theorem varChain_increases {f : Function} (hblocks : blocks ⊆ f.blocks) {argVar loopVar : Var} {n : ℕ} {s : ℤ}
    (hlast : ChainConstLast (loadGlobal gs) blocks loopVar)
    (hchain : varChain (loadGlobal gs) argVar blocks n loopVar 0 = some (some s)) :
    Increases W G p f argVar loopVar s := by
  rintro fr fr' stack stack' t t' hreach rfl ⟨b, header, args, i, ty, hb, hend, hgoto, hheader, harg, hloop⟩
    hstep size old hold
  have hfr : fr.Global W (globalVars gs) G p :=
    (hreach.held (global_kept hscoped hG.bound)).frames List.mem_cons_self
  have hf := hscoped.functions _ hfr.func
  have hx : fr.func.InScope (globalVars gs) loopVar (fr.label, fr.index) := by
    rw [hfr.toDefined.index hb hend]
    refine hf.transfer hb ?_
    rw [hgoto]
    exact List.mem_of_getElem? hloop
  -- What the step passes is what the header binds.
  have hnew : fr'.env argVar = fr.env loopVar := by
    rw [State.step, hb, Option.bind_eq_bind, Option.bind_some, hend, hgoto] at hstep
    obtain ⟨vs, hvs, hstep⟩ := Option.bind_eq_some_iff.mp hstep
    obtain ⟨fr'', henter, hstep⟩ := Option.bind_eq_some_iff.mp hstep
    obtain ⟨rfl, -, -⟩ := State.running.inj (Option.some.inj hstep)
    obtain ⟨b', hb', henter⟩ := Option.bind_eq_some_iff.mp henter
    obtain rfl := Option.some.inj (hheader.symm.trans hb')
    obtain ⟨hlen, henter⟩ := Option.ite_none_right_eq_some.mp henter
    obtain rfl := Option.some.inj henter
    obtain ⟨v, hv, hloopVar⟩ := Env.all_getElem? hvs hloop
    have hall := Env.all_sets (ρ := fr.env) (hf.formals hheader) (by simpa using hlen)
    obtain ⟨w, hw, hargVar⟩ := Env.all_getElem? hall (i := i) (x := argVar) (by simp [harg])
    obtain rfl := Option.some.inj (hv.symm.trans hw)
    exact hargVar.trans hloopVar.symm
  obtain ⟨rfl, rfl⟩ | ⟨size', a, ha, hnext⟩ := varChain_adds hscoped hW hG hfr hblocks hx hlast hchain
  · rw [hnew, hold]
    simp
  · have heq := Option.some.inj (hold.symm.trans ha)
    obtain rfl := Val.size_of_word heq
    obtain rfl := Val.word_inj heq
    rw [hnew, hnext, sub_zero]

end Runs

/-! ## The start -/

/-- Where an argument is looked for in the `n`-th edge from the last one. -/
def seat (k n i : ℕ) : ℕ := if n % 2 = 0 then i else k - 1 - i

/-- The edge passes a constant of the unsigned value at the position. -/
def Passes (e : Entry) (i : ℕ) (x : ℤ) : Prop := ∃ x', e[i]? = some (some (x, x'))

/-- Every constant that is reported is passed by all the edges, at its position. -/
def StartsRight (entries : List Entry) : Prop :=
  ∀ (i : ℕ) c, (findConstantStart entries)[i]? = some (some c) → ∀ e ∈ entries, e[i]? = some (some c)

/-- Where every other edge from the last one passes a constant at one position, and the edges between them
at the mirrored one, all of them pass it at the one position. -/
def Straight (k : ℕ) (entries : List Entry) : Prop :=
  ∀ i, i < k → ∀ c : ℤ × ℤ, (∀ e ∈ entries.getLast?, e[i]? = some (some c)) →
    (∀ n e, entries.reverse[n]? = some e → Passes e (seat k n i) c.1) → ∀ e ∈ entries, e[i]? = some (some c)

variable {k i : ℕ} {entries : List Entry} {v1 v2 e : Entry} {d : ℤ × ℤ}

theorem mirror_mirror (hi : i < k) : k - 1 - (k - 1 - i) = i := by omega

theorem seat_mirror {n : ℕ} (hi : i < k) : seat k n (k - 1 - i) = seat k (n + 1) i := by
  unfold seat
  split <;> split <;> omega

theorem mergeEntry_eq : mergeEntry v1 v2 = (List.zipWith mergeArg v1 v2).reverse := by
  have hfold : ∀ (l : List (Option (ℤ × ℤ) × Option (ℤ × ℤ))) (lst : Entry),
      l.foldl (fun lst a => mergeArg a.1 a.2 :: lst) lst =
        (l.map fun a => mergeArg a.1 a.2).reverse ++ lst := by
    intro l
    induction l with
    | nil => simp
    | cons a l ih => simp [ih]
  rw [mergeEntry, hfold, List.append_nil, List.zip, List.map_zipWith]

theorem mergeArg_eq_some {a1 a2 : Option (ℤ × ℤ)} :
    mergeArg a1 a2 = some d ↔ a1 = some d ∧ ∃ x', a2 = some (d.1, x') := by
  obtain ⟨x, y⟩ := d
  rcases a1 with _ | ⟨x1, x1'⟩
  · simp [mergeArg]
  · rcases a2 with _ | ⟨x2, x2'⟩
    · simp [mergeArg]
    · simp only [mergeArg, Option.ite_none_right_eq_some, Option.some.injEq, Prod.mk.injEq,
        exists_and_left, exists_eq', and_true]
      constructor
      · rintro ⟨rfl, rfl, rfl⟩
        exact ⟨⟨rfl, rfl⟩, rfl⟩
      · rintro ⟨⟨rfl, rfl⟩, rfl⟩
        exact ⟨rfl, rfl, rfl⟩

theorem length_mergeEntry (h1 : v1.length = k) (h2 : v2.length = k) : (mergeEntry v1 v2).length = k := by
  simp [mergeEntry_eq, h1, h2]

theorem mergeEntry_getElem? (h1 : v1.length = k) (h2 : v2.length = k) (hi : i < k) :
    (mergeEntry v1 v2)[i]? = some (some d) ↔
      v1[k - 1 - i]? = some (some d) ∧ Passes v2 (k - 1 - i) d.1 := by
  obtain ⟨a1, ha1⟩ : ∃ a1, v1[k - 1 - i]? = some a1 := ⟨_, List.getElem?_eq_getElem (by omega)⟩
  obtain ⟨a2, ha2⟩ : ∃ a2, v2[k - 1 - i]? = some a2 := ⟨_, List.getElem?_eq_getElem (by omega)⟩
  rw [mergeEntry_eq, List.getElem?_reverse (by simpa [h1, h2] using hi), List.length_zipWith, h1, h2,
    min_self, List.getElem?_zipWith, ha1, ha2]
  simp [Passes, ha2, mergeArg_eq_some]

/-- **The merges**, over the edges from the last one. -/
theorem foldr_mergeEntry (hk : v2.length = k) : ∀ {l : List Entry}, (∀ e ∈ l, e.length = k) →
    (l.foldr mergeEntry v2).length = k ∧ ∀ {i : ℕ} {x : ℤ}, i < k →
      (Passes (l.foldr mergeEntry v2) i x ↔ Passes v2 (seat k l.length i) x ∧
        ∀ n e, l[n]? = some e → Passes e (seat k (n + 1) i) x)
  | [], _ => ⟨hk, fun _ => by simp [seat]⟩
  | e :: l, hl => by
      obtain ⟨hlen, hpass⟩ := foldr_mergeEntry hk fun e he => hl e (List.mem_cons_of_mem _ he)
      have he := hl e List.mem_cons_self
      refine ⟨length_mergeEntry he hlen, fun {i x} hi => ?_⟩
      have hmirror : k - 1 - i < k := by omega
      have hmerge : Passes (mergeEntry e (l.foldr mergeEntry v2)) i x ↔
          Passes e (k - 1 - i) x ∧ Passes (l.foldr mergeEntry v2) (k - 1 - i) x := by
        simp only [Passes, mergeEntry_getElem? he hlen hi]
        exact ⟨fun ⟨x', h, h'⟩ => ⟨⟨x', h⟩, h'⟩, fun ⟨⟨x', h⟩, h'⟩ => ⟨x', h, h'⟩⟩
      have hone : seat k 1 i = k - 1 - i := rfl
      simp only [List.foldr_cons, hmerge, hpass hmirror, seat_mirror hi, List.length_cons]
      constructor
      · rintro ⟨hhead, hlast, htail⟩
        refine ⟨hlast, fun n e' hn => ?_⟩
        cases n with
        | zero =>
          obtain rfl := Option.some.inj hn
          exact hone ▸ hhead
        | succ n => exact htail n e' hn
      · rintro ⟨hlast, hall⟩
        exact ⟨hone ▸ hall 0 e rfl, hlast, fun n e' hn => hall (n + 1) e' hn⟩

theorem length_findConstantStart (hk : ∀ e ∈ entries, e.length = k) (hne : entries ≠ []) :
    (findConstantStart entries).length = k := by
  obtain ⟨first, rest, rfl⟩ := List.exists_cons_of_ne_nil hne
  rw [findConstantStart, List.length_reverse, ← List.foldr_reverse]
  exact (foldr_mergeEntry (hk first List.mem_cons_self) fun e he => hk e (List.mem_reverse.mp he)).1

/-- **What is reported**: a constant that the last edge passes at the position, if the edges pass it as the
merges see them. -/
theorem findConstantStart_eq_some (hk : ∀ e ∈ entries, e.length = k) (hne : entries ≠ []) (hi : i < k) :
    (findConstantStart entries)[i]? = some (some d) ↔
      (∀ e ∈ entries.getLast?, e[i]? = some (some d)) ∧
        ∀ n e, entries.reverse[n]? = some e → Passes e (seat k n i) d.1 := by
  obtain ⟨first, rest, rfl⟩ := List.exists_cons_of_ne_nil hne
  obtain ⟨init, last, hlast⟩ := (first :: rest).eq_nil_or_concat'.resolve_left hne
  have hreverse : (first :: rest).reverse = last :: init.reverse := by simp [hlast]
  have hfirst : (last :: init.reverse)[init.reverse.length]? = some first := by
    rw [← hreverse]
    have hlength : init.reverse.length = rest.length := by simpa using (congrArg List.length hlast).symm
    simp [hlength]
  have hklast : last.length = k := hk last (by simp [hlast])
  obtain ⟨hlen, hpass⟩ := foldr_mergeEntry (hk first List.mem_cons_self) (l := init.reverse)
    fun e he => hk e (hlast ▸ List.mem_append_left _ (List.mem_reverse.mp he))
  have hmirror : k - 1 - i < k := by omega
  rw [findConstantStart, ← List.foldr_reverse, hreverse, List.foldr_cons,
    List.getElem?_reverse (by rw [length_mergeEntry hklast hlen]; exact hi), length_mergeEntry hklast hlen,
    mergeEntry_getElem? hklast hlen hmirror, mirror_mirror hi, hpass hi, hlast, List.getLast?_concat]
  constructor
  · rintro ⟨hd, -, htail⟩
    refine ⟨fun e he => Option.some.inj he ▸ hd, fun n e hn => ?_⟩
    cases n with
    | zero =>
      obtain rfl := Option.some.inj hn
      exact ⟨d.2, hd⟩
    | succ n => exact htail n e hn
  · rintro ⟨hd, hall⟩
    exact ⟨hd last rfl, hall _ _ hfirst, fun n e hn => hall (n + 1) e hn⟩

/-- **When the start is right.** -/
theorem startsRight_iff (hk : ∀ e ∈ entries, e.length = k) : StartsRight entries ↔ Straight k entries := by
  rcases eq_or_ne entries [] with rfl | hne
  · simp [StartsRight, Straight]
  · constructor
    · intro h i hi c hlast hseat
      exact h i c ((findConstantStart_eq_some hk hne hi).mpr ⟨hlast, hseat⟩)
    · intro h i c hreport
      have hi : i < k := length_findConstantStart hk hne ▸ (List.getElem?_eq_some_iff.mp hreport).1
      obtain ⟨hlast, hseat⟩ := (findConstantStart_eq_some hk hne hi).mp hreport
      exact h i hi c hlast hseat

/-! ## Both -/

/-- **Induction variables.**  One addition is reported right exactly if it is no subtraction from the
constant.  If no link of a chain is one, then on every iteration of every run the argument increases by
what the chain reports.  Constant starts are right exactly if the edges are not mixed up. -/
theorem inductionVars_right {W : World} {gs : List Statement} {G : Env} {p : Program}
    (hscoped : p.Scoped (globalVars gs)) (hW : Computes W) (hG : GlobalsHold gs G) :
    (∀ loadVar a1 a2 prim y c, checkPrim loadVar [a1, a2] prim = some (y, c) →
      ((∀ ρ v, Loads loadVar ρ → (ρ.all [a1, a2]).bind (arith prim) = some v →
          ∃ n, ∃ a : BitVec n, ρ y = some (.word n a) ∧ v = .word n (a + .ofInt n c)) ↔
        ConstLast loadVar prim [a1, a2])) ∧
    (∀ f blocks argVar loopVar n s, blocks ⊆ f.blocks →
      varChain (loadGlobal gs) argVar blocks n loopVar 0 = some (some s) →
      ChainConstLast (loadGlobal gs) blocks loopVar → Increases W G p f argVar loopVar s) ∧
    ∀ k entries, (∀ e ∈ entries, e.length = k) → (StartsRight entries ↔ Straight k entries) :=
  ⟨fun _ _ _ _ _ _ hcheck => checkPrim_iff hcheck,
    fun _ _ _ _ _ _ hblocks hchain hlast => varChain_increases hscoped hW hG hblocks hlast hchain,
    fun _ _ hk => startsRight_iff hk⟩

/-- The globals `v0 = 5` and `v1 = 0`. -/
def countGlobals : List Statement :=
  [⟨some ⟨0⟩, .word 8, .const (.word 8 5)⟩, ⟨some ⟨1⟩, .word 8, .const (.word 8 0)⟩]

/-- The globals. -/
def countEnv : Env := (Env.set (fun _ => none) ⟨0⟩ (.const (.word 8 5))).set ⟨1⟩ (.const (.word 8 0))

/-- The block of a loop. -/
def countBlock (prim : Prim) (args : List Var) : Block where
  args := [(⟨2⟩, .word 8)]
  label := ⟨1⟩
  statements := [⟨some ⟨3⟩, .word 8, .primApp prim [] none args⟩]
  transfer := .goto ⟨1⟩ [⟨3⟩]

/-- `main () { L0 () { goto L1 (v1) }  L1 (v2) { v3 = prim (args); goto L1 (v3) } }`. -/
def countMain (prim : Prim) (args : List Var) : Function where
  args := []
  blocks := [
    { args := []
      label := ⟨0⟩
      statements := []
      transfer := .goto ⟨1⟩ [⟨1⟩] },
    countBlock prim args]
  mayInline := true
  name := ⟨0⟩
  raises := none
  returns := none
  start := ⟨0⟩

def count (prim : Prim) (args : List Var) : Program := ⟨[countMain prim args], ⟨0⟩⟩

/-- A world that adds and subtracts words. -/
def computing : World where
  call _ _ _ := none
  prim _ prim _ _ vs := arith prim vs
  runtime _ _ _ := none

theorem computes_computing : Computes computing := ⟨rfl, rfl⟩

theorem globalsHold_countEnv : GlobalsHold countGlobals countEnv := by
  intro s hs x hx
  simp only [countGlobals, List.mem_cons, List.not_mem_nil, or_false] at hs
  obtain rfl | rfl := hs <;> obtain rfl := Option.some.inj hx
  · exact ⟨_, rfl, fun c hc => by cases hc; rfl⟩
  · exact ⟨_, rfl, fun c hc => by cases hc; rfl⟩

/-- Five is added in every iteration. -/
theorem inductionVars_right_count :
    varChain (loadGlobal countGlobals) ⟨2⟩ [countBlock (.wordAdd 8) [⟨0⟩, ⟨2⟩]] 2 ⟨3⟩ 0 = some (some 5) ∧
      Increases computing countEnv (count (.wordAdd 8) [⟨0⟩, ⟨2⟩]) (countMain (.wordAdd 8) [⟨0⟩, ⟨2⟩])
        ⟨2⟩ ⟨3⟩ 5 ∧
      StartsRight [[some (1, 1), none]] := by
  have hchain : varChain (loadGlobal countGlobals) ⟨2⟩ [countBlock (.wordAdd 8) [⟨0⟩, ⟨2⟩]] 2 ⟨3⟩ 0 =
      some (some 5) := by decide
  obtain ⟨-, hruns, hstarts⟩ := inductionVars_right (p := count (.wordAdd 8) [⟨0⟩, ⟨2⟩])
    (Program.LocallyScoped.scoped (by decide)) computes_computing globalsHold_countEnv
  refine ⟨hchain, hruns _ _ _ _ _ _ (List.subset_cons_self _ _) hchain ?_, (hstarts 2 _ (by simp)).mpr ?_⟩
  · rintro x - b hb s hs prim targs mode args - hexp n a rfl
    obtain rfl := List.mem_singleton.mp hb
    obtain rfl := List.mem_singleton.mp hs
    cases hexp
  · intro i _ c hlast _ e he
    obtain rfl := List.mem_singleton.mp he
    exact hlast _ rfl

/-- **A subtraction from a constant, and two edges with two arguments.**  The loop whose argument becomes
five minus the argument is reported to add minus five.  The edges that pass `(1, 2)` and `(2, 1)` are
reported to pass `(2, 1)` both. -/
theorem subtracts_not_increases :
    (varChain (loadGlobal countGlobals) ⟨2⟩ [countBlock (.wordSub 8) [⟨0⟩, ⟨2⟩]] 2 ⟨3⟩ 0 = some (some (-5)) ∧
      ¬ Increases computing countEnv (count (.wordSub 8) [⟨0⟩, ⟨2⟩]) (countMain (.wordSub 8) [⟨0⟩, ⟨2⟩])
        ⟨2⟩ ⟨3⟩ (-5)) ∧
      findConstantStart [[some (1, 1), some (2, 2)], [some (2, 2), some (1, 1)]] =
        [some (2, 2), some (1, 1)] ∧
      ¬ StartsRight [[some (1, 1), some (2, 2)], [some (2, 2), some (1, 1)]] := by
  refine ⟨⟨by decide, fun h => ?_⟩, by decide, fun h => ?_⟩
  · have hreach : (count (.wordSub 8) [⟨0⟩, ⟨2⟩]).Reaches computing countEnv _ :=
      .step (.step (.init rfl) rfl) rfl
    have hnew := h _ _ _ _ _ _ hreach rfl ⟨countBlock (.wordSub 8) [⟨0⟩, ⟨2⟩],
      countBlock (.wordSub 8) [⟨0⟩, ⟨2⟩], [⟨3⟩], 0, .word 8, rfl, rfl, rfl, rfl, rfl, rfl⟩ rfl 8 0 rfl
    have heq : (5 : BitVec 8) = 0 + .ofInt 8 (-5) := Val.word_inj (Option.some.inj hnew)
    exact absurd heq (by decide)
  · have := h 0 (2, 2) rfl _ List.mem_cons_self
    simp at this

end MLton.Ssa.LoopUnroll
