import MLton.Atoms

/-!
# Ssa/Tree — the SSA intermediate language

Functions of labelled blocks.  A block binds its formals, runs its statements and ends in a transfer;
allocating expressions carry the mode that says where the object goes.
-/

namespace MLton.Ssa

/-- SSA types. -/
inductive Ty where
  | array (t : Ty)
  | cpointer
  | datatype (tycon : ℕ)
  | intInf
  | real (size : ℕ)
  | ref (t : Ty)
  | thread
  | tuple (ts : List Ty)
  | vector (t : Ty)
  | weak (t : Ty)
  | word (size : ℕ)

namespace Ty

/-! Equality of types can be decided: the type nests in lists, so by hand. -/

mutual

/-- `Type.equals`. -/
def beq : Ty → Ty → Bool
  | array t, array t' => beq t t'
  | cpointer, cpointer => true
  | datatype tycon, datatype tycon' => tycon = tycon'
  | intInf, intInf => true
  | real size, real size' => size = size'
  | ref t, ref t' => beq t t'
  | thread, thread => true
  | tuple ts, tuple ts' => beqs ts ts'
  | vector t, vector t' => beq t t'
  | weak t, weak t' => beq t t'
  | word size, word size' => size = size'
  | _, _ => false

/-- `Type.equals` on lists of types. -/
def beqs : List Ty → List Ty → Bool
  | [], [] => true
  | t :: ts, t' :: ts' => beq t t' && beqs ts ts'
  | _, _ => false

end

mutual

theorem eq_of_beq : ∀ {t t' : Ty}, beq t t' = true → t = t'
  | array t, array t', h => congrArg array (eq_of_beq (by simpa [beq] using h))
  | cpointer, cpointer, _ => rfl
  | datatype _, datatype _, h => congrArg datatype (by simpa [beq] using h)
  | intInf, intInf, _ => rfl
  | real _, real _, h => congrArg real (by simpa [beq] using h)
  | ref t, ref t', h => congrArg ref (eq_of_beq (by simpa [beq] using h))
  | thread, thread, _ => rfl
  | tuple ts, tuple ts', h => congrArg tuple (eq_of_beqs (by simpa [beq] using h))
  | vector t, vector t', h => congrArg vector (eq_of_beq (by simpa [beq] using h))
  | weak t, weak t', h => congrArg weak (eq_of_beq (by simpa [beq] using h))
  | word _, word _, h => congrArg word (by simpa [beq] using h)

theorem eq_of_beqs : ∀ {ts ts' : List Ty}, beqs ts ts' = true → ts = ts'
  | [], [], _ => rfl
  | t :: ts, t' :: ts', h => by
    obtain ⟨ht, hts⟩ := (Bool.and_eq_true _ _).mp h
    rw [eq_of_beq ht, eq_of_beqs hts]

end

mutual

theorem beq_self : ∀ t : Ty, beq t t = true
  | array t | ref t | vector t | weak t => by simpa [beq] using beq_self t
  | cpointer | intInf | thread => rfl
  | datatype _ | real _ | word _ => by simp [beq]
  | tuple ts => by simpa [beq] using beqs_self ts

theorem beqs_self : ∀ ts : List Ty, beqs ts ts = true
  | [] => rfl
  | t :: ts => by simp [beqs, beq_self t, beqs_self ts]

end

instance : DecidableEq Ty := fun t t' =>
  decidable_of_iff (beq t t' = true) ⟨eq_of_beq, fun h => h ▸ beq_self t⟩

/-- `Type.unit`. -/
def unit : Ty := tuple []

/-- `Type.deTupleOpt`. -/
def deTupleOpt : Ty → Option (List Ty)
  | tuple ts => some ts
  | _ => none

/-- `Type.deTuple`; it is only applied to tuple types. -/
def deTuple (t : Ty) : List Ty := t.deTupleOpt.getD []

end Ty

/-- `Prim.Kind`: what a primitive may depend on and do. -/
inductive Prim.Kind where
  | dependsOnState
  | functional
  | moveable
  | sideEffect
deriving DecidableEq, Repr

/-- Primitives.  The ones a pass singles out have a constructor; the rest are told apart by kind and
name. -/
inductive Prim where
  | arrayAlloc (raw : Bool)
  | arrayLength
  | arrayToArray
  | arrayToVector
  | intInfAdd
  | intInfAndb
  | intInfGcd
  | intInfMul
  | intInfOrb
  | intInfXorb
  | mltonBug
  | mltonEq
  | mltonEqual
  | realAdd (size : ℕ)
  | realEqual (size : ℕ)
  | realMul (size : ℕ)
  | realQequal (size : ℕ)
  | regionPush
  | regionPop
  | threadCopyCurrent
  | vectorLength
  | wordAdd (size : ℕ)
  | wordAddCheckP (size : ℕ) (signed : Bool)
  | wordAndb (size : ℕ)
  | wordEqual (size : ℕ)
  | wordExtdToWord (size size' : ℕ) (signed : Bool)
  | wordLt (size : ℕ) (signed : Bool)
  | wordMul (size : ℕ) (signed : Bool)
  | wordMulCheckP (size : ℕ) (signed : Bool)
  | wordOrb (size : ℕ)
  | wordSub (size : ℕ)
  | wordSubCheckP (size : ℕ) (signed : Bool)
  | wordXorb (size : ℕ)
  | named (kind : Prim.Kind) (name : ℕ)
deriving DecidableEq, Repr

namespace Prim

/-- `isCommutative`. -/
def isCommutative : Prim → Bool
  | mltonEq | mltonEqual => true
  | realAdd _ | realMul _ | realEqual _ | realQequal _ => true
  | wordAdd _ | wordAddCheckP _ _ | wordAndb _ | wordEqual _ | wordMul _ _ | wordMulCheckP _ _ => true
  | wordOrb _ | wordXorb _ => true
  | _ => false

/-- `kind`. -/
def kind : Prim → Kind
  | arrayAlloc _ => .moveable
  | arrayLength => .functional
  | arrayToArray | arrayToVector => .dependsOnState
  | intInfAdd | intInfAndb | intInfGcd | intInfMul | intInfOrb | intInfXorb => .functional
  | mltonBug => .sideEffect
  | mltonEq | mltonEqual => .functional
  -- these depend on the rounding mode
  | realAdd _ | realMul _ => .dependsOnState
  | realEqual _ | realQequal _ => .functional
  | regionPush | regionPop => .sideEffect
  | threadCopyCurrent => .sideEffect
  | vectorLength => .functional
  | wordAdd _ | wordAddCheckP _ _ | wordAndb _ | wordEqual _ | wordMul _ _ | wordMulCheckP _ _ => .functional
  | wordExtdToWord _ _ _ | wordLt _ _ => .functional
  | wordOrb _ | wordSub _ | wordSubCheckP _ _ | wordXorb _ => .functional
  | named kind _ => kind

/-- `isFunctional`. -/
def isFunctional (p : Prim) : Bool := p.kind = .functional

/-- `equals`; it has no case for the region primitives, not even for one and itself. -/
def equals : Prim → Prim → Bool
  | regionPush, _ | regionPop, _ => false
  | p, p' => p = p'

end Prim

/-- Constants, by the type they are read at. -/
inductive Const where
  | cSymbol (name : ℕ)
  | intInf (i : ℤ)
  | null
  | real (size bits : ℕ)
  | word (size value : ℕ)
  | wordVector (size : ℕ) (elements : List ℕ)
deriving DecidableEq, Repr

/-- `Type.ofConst`. -/
def Ty.ofConst : Const → Ty
  | .cSymbol _ => cpointer
  | .intInf _ => intInf
  | .null => cpointer
  | .real size _ => real size
  | .word size _ => word size
  | .wordVector size _ => vector (word size)

/-- Profiling marks. -/
inductive ProfileExp where
  | enter (si : ℕ)
  | leave (si : ℕ)
deriving DecidableEq, Repr

/-- Right-hand sides of statements. -/
inductive Exp where
  | conApp (con : Con) (args : List Var) (mode : Mode)
  | const (c : Const)
  | primApp (prim : Prim) (targs : List Ty) (mode : Option Mode) (args : List Var)
  | profile (e : ProfileExp)
  | select (tuple : Var) (offset : ℕ)
  | tuple (exps : List Var) (mode : Mode)
  | var (x : Var)
deriving DecidableEq

/-- `Exp.foreachVar`, as a list. -/
def Exp.vars : Exp → List Var
  | conApp _ args _ => args
  | const _ => []
  | primApp _ _ _ args => args
  | profile _ => []
  | select x _ => [x]
  | tuple exps _ => exps
  | var x => [x]

/-- `Exp.replaceVar`. -/
def Exp.replaceVar (fx : Var → Var) : Exp → Exp
  | conApp con args mode => conApp con (args.map fx) mode
  | const c => const c
  | primApp prim targs mode args => primApp prim targs mode (args.map fx)
  | profile e => profile e
  | select x offset => select (fx x) offset
  | tuple exps mode => tuple (exps.map fx) mode
  | var x => var (fx x)

/-- A statement: evaluate `exp` and, if `var` is given, bind it. -/
structure Statement where
  var : Option Var
  ty : Ty
  exp : Exp

/-- The arms of a case: on constructors, or on words of one size. -/
inductive Cases where
  | con (cs : List (Con × Label))
  | word (size : ℕ) (cs : List (ℕ × Label))
deriving DecidableEq, Repr

/-- `Cases.foreach`, as a list. -/
def Cases.labels : Cases → List Label
  | con cs => cs.map Prod.snd
  | word _ cs => cs.map Prod.snd

/-- How a block ends. -/
inductive Transfer where
  | bug
  | call (args : List Var) (func : Func) (ret : Return)
  | case (test : Var) (cases : Cases) (default : Option Label)
  | goto (dst : Label) (args : List Var)
  | raise (xs : List Var)
  | ret (xs : List Var)
  | runtime (prim : Prim) (args : List Var) (ret : Label)

/-- `Transfer.foreachLabel`, as the list of labels in the order they are visited. -/
def Transfer.labels : Transfer → List Label
  | bug => []
  | call _ _ r => r.labels
  | case _ cs default => cs.labels ++ default.toList
  | goto dst _ => [dst]
  | raise _ => []
  | ret _ => []
  | runtime _ _ l => [l]

/-- `Transfer.replaceVar`. -/
def Transfer.replaceVar (fx : Var → Var) : Transfer → Transfer
  | bug => bug
  | call args func k => call (args.map fx) func k
  | case test cases default => case (fx test) cases default
  | goto dst args => goto dst (args.map fx)
  | raise xs => raise (xs.map fx)
  | ret xs => ret (xs.map fx)
  | runtime prim args l => runtime prim (args.map fx) l

/-- A basic block. -/
structure Block where
  args : List (Var × Ty)
  label : Label
  statements : List Statement
  transfer : Transfer

/-- A function: its blocks, and the label control enters at. -/
structure Function where
  args : List (Var × Ty)
  blocks : List Block
  mayInline : Bool
  name : Func
  raises : Option (List Ty)
  returns : Option (List Ty)
  start : Label

namespace Function

/-- The block a label names. -/
def block? (f : Function) (l : Label) : Option Block := f.blocks.find? (·.label = l)

/-- The targets of the block a label names. -/
def succs (f : Function) (l : Label) : List Label :=
  match f.block? l with
  | some b => b.transfer.labels
  | none => []

theorem block?_label {f : Function} {l : Label} {b : Block} (h : f.block? l = some b) :
    b.label = l := by
  simpa using List.find?_some h

theorem block?_mem {f : Function} {l : Label} {b : Block} (h : f.block? l = some b) :
    b ∈ f.blocks :=
  List.mem_of_find?_eq_some h

theorem succs_of_block? {f : Function} {l : Label} {b : Block} (h : f.block? l = some b) :
    f.succs l = b.transfer.labels := by
  simp [succs, h]

/-- Rewriting every block in place, under its own label, commutes with looking blocks up. -/
theorem block?_map {f f' : Function} {g : Block → Block} (hblocks : f'.blocks = f.blocks.map g)
    (hlabel : ∀ b, (g b).label = b.label) (l : Label) : f'.block? l = (f.block? l).map g := by
  have hcomp : ((fun b : Block => decide (b.label = l)) ∘ g)
      = fun b : Block => decide (b.label = l) := by
    funext b
    simp [hlabel]
  simp only [block?, hblocks, List.find?_map, hcomp]

/-- The labels control can be at: the start, the blocks and their targets. -/
def labels (f : Function) : List Label :=
  f.start :: f.blocks.flatMap fun b => b.label :: b.transfer.labels

theorem start_mem_labels (f : Function) : f.start ∈ f.labels := List.mem_cons_self ..

theorem succs_subset_labels (f : Function) (l : Label) : f.succs l ⊆ f.labels := by
  intro l' hl'
  cases hb : f.block? l with
  | none => simp [succs, hb] at hl'
  | some b =>
    rw [succs_of_block? hb] at hl'
    exact List.mem_cons_of_mem _
      (List.mem_flatMap.mpr ⟨b, block?_mem hb, List.mem_cons_of_mem _ hl'⟩)

end Function

/-- A program.  Datatypes and globals are left out: no pass modelled here reads them. -/
structure Program where
  functions : List Function
  main : Func

/-- The function a name names. -/
def Program.function? (p : Program) (g : Func) : Option Function :=
  p.functions.find? (·.name = g)

theorem Program.function?_mem {p : Program} {f : Function} {func : Func}
    (h : p.function? func = some f) : f ∈ p.functions :=
  List.mem_of_find?_eq_some h

end MLton.Ssa
