import MLton.Ssa.Tree

/-!
# Ssa/TypeCheck — what the type checker asks of transfers

Every transfer passes its targets what their formals are declared to be: gotos their arguments, cases
the arguments of the constructor, calls what the callee returns and raises.
-/

namespace MLton.Ssa

/-- What the datatypes and the primitives say: the types of a constructor's arguments, and the formals
that may follow a runtime transfer. -/
structure Signatures where
  con : Con → List Ty
  runtime : Prim → List Ty → List Ty → Prop

/-- The types of the variables. -/
abbrev Types := Var → Option Ty

/-- The types of all the variables. -/
def Types.all (τ : Types) (xs : List Var) : Option (List Ty) := xs.mapM τ

/-- The formals of a label have these types. -/
def Function.Formals (f : Function) (l : Label) (ts : List Ty) : Prop :=
  ∃ b, f.block? l = some b ∧ b.args.map Prod.snd = ts

/-- What a callee raises agrees with where it goes. -/
def Handler.Agrees (f callee : Function) : Handler → Prop
  | .caller => ∀ ts, callee.raises = some ts → f.raises = some ts
  | .dead => callee.raises = none
  | .handle l => ∀ ts, callee.raises = some ts → f.Formals l ts

/-- What a callee returns and raises agrees with where it goes. -/
def Return.Agrees (f callee : Function) : Return → Prop
  | .dead => callee.returns = none ∧ callee.raises = none
  | .nonTail cont handler =>
    (∀ ts, callee.returns = some ts → f.Formals cont ts) ∧ Handler.Agrees f callee handler
  | .tail =>
    (∀ ts, callee.returns = some ts → f.returns = some ts) ∧
      ∀ ts, callee.raises = some ts → f.raises = some ts

/-- The arms of a case agree with the formals of their targets. -/
def Cases.Agree (S : Signatures) (f : Function) : Cases → Prop
  | .con cs => ∀ arm ∈ cs, f.Formals arm.2 (S.con arm.1)
  | .word _ cs => ∀ arm ∈ cs, f.Formals arm.2 []

/-- What `loopTransfer` checks. -/
def Transfer.Agrees (S : Signatures) (τ : Types) (p : Program) (f : Function) : Transfer → Prop
  | .bug => True
  | .call args func k =>
    ∃ callee, p.function? func = some callee ∧ τ.all args = some (callee.args.map Prod.snd) ∧
      Return.Agrees f callee k
  | .case _ cases default => cases.Agree S f ∧ ∀ l ∈ default, f.Formals l []
  | .goto dst args => ∃ ts, τ.all args = some ts ∧ f.Formals dst ts
  | .raise xs => ∃ ts, τ.all xs = some ts ∧ f.raises = some ts
  | .ret xs => ∃ ts, τ.all xs = some ts ∧ f.returns = some ts
  | .runtime prim args l => ∃ ts ts', τ.all args = some ts ∧ f.Formals l ts' ∧ S.runtime prim ts ts'

/-- What a function is called with, and what it comes back with. -/
structure Function.SameSignature (f f' : Function) : Prop where
  args : f'.args = f.args
  raises : f'.raises = f.raises
  returns : f'.returns = f.returns

/-- A transfer agrees with targets that have the formals it agrees with. -/
theorem Transfer.Agrees.map {S : Signatures} {τ : Types} {p p' : Program} {f f' : Function}
    {tr : Transfer} (h : tr.Agrees S τ p f) (hf : f.SameSignature f')
    (hformals : ∀ l ∈ tr.labels, ∀ ts, f.Formals l ts → f'.Formals l ts)
    (hfunc : ∀ func g, p.function? func = some g →
      ∃ g', p'.function? func = some g' ∧ g.SameSignature g') : tr.Agrees S τ p' f' := by
  cases tr with
  | bug => trivial
  | call args func k =>
    obtain ⟨g, hg, hargs, hk⟩ := h
    obtain ⟨g', hg', hsame⟩ := hfunc func g hg
    refine ⟨g', hg', by rw [hsame.args]; exact hargs, ?_⟩
    cases k with
    | dead => exact ⟨hsame.returns.trans hk.1, hsame.raises.trans hk.2⟩
    | tail =>
      refine ⟨fun ts hts => hf.returns.trans (hk.1 ts ?_), fun ts hts => hf.raises.trans (hk.2 ts ?_)⟩
      · exact hsame.returns.symm.trans hts
      · exact hsame.raises.symm.trans hts
    | nonTail cont handler =>
      refine ⟨fun ts hts => hformals cont ?_ ts (hk.1 ts (hsame.returns.symm.trans hts)), ?_⟩
      · exact List.mem_cons_self ..
      · cases handler with
        | caller => exact fun ts hts => hf.raises.trans (hk.2 ts (hsame.raises.symm.trans hts))
        | dead => exact hsame.raises.trans hk.2
        | handle l =>
          refine fun ts hts => hformals l ?_ ts (hk.2 ts (hsame.raises.symm.trans hts))
          simp [labels, Return.labels, Handler.labels]
  | case test cases default =>
    refine ⟨?_, fun l hl => hformals l (List.mem_append_right _ (by simpa using hl)) [] (h.2 l hl)⟩
    cases cases with
    | con cs =>
      exact fun arm harm => hformals _ (List.mem_append_left _ (List.mem_map_of_mem harm)) _
        (h.1 arm harm)
    | word size cs =>
      exact fun arm harm => hformals _ (List.mem_append_left _ (List.mem_map_of_mem harm)) _
        (h.1 arm harm)
  | goto dst args =>
    obtain ⟨ts, hargs, hdst⟩ := h
    exact ⟨ts, hargs, hformals dst (List.mem_singleton.mpr rfl) ts hdst⟩
  | raise xs =>
    obtain ⟨ts, hts, hxs⟩ := h
    exact ⟨ts, hts, hf.raises.trans hxs⟩
  | ret xs =>
    obtain ⟨ts, hts, hxs⟩ := h
    exact ⟨ts, hts, hf.returns.trans hxs⟩
  | runtime prim args l =>
    obtain ⟨ts, ts', hargs, hl, hprim⟩ := h
    exact ⟨ts, ts', hargs, hformals l (List.mem_singleton.mpr rfl) ts' hl, hprim⟩

/-- Every transfer of the program agrees with its targets, and formals have the types they declare. -/
def Program.Agrees (S : Signatures) (τ : Types) (p : Program) : Prop :=
  ∀ f ∈ p.functions, (∀ vt ∈ f.args, τ vt.1 = some vt.2) ∧
    ∀ b ∈ f.blocks, b.transfer.Agrees S τ p f ∧ ∀ vt ∈ b.args, τ vt.1 = some vt.2

end MLton.Ssa
