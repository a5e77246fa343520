import MLton.Ssa.FreshNames
import MLton.Ssa.Stepwise

/-!
# Ssa/Detours — programs whose transfers take other ways to the same places

A pass that leaves the statements of a program where they are may still send control another way: through a block of
its own in front of the target, to a block that is shared, or back to the start of a loop instead of into a call.  What
has to be known is that each transfer comes, maybe by way of some quiet steps, to a transfer that takes both programs
to activations that have something in common (`Detours`).  Then the programs run the same (`Detours.sameRuns`).
-/

namespace MLton.Ssa

open MLton.Effects MLton.Simulation

/-- Formals get their values whatever was there before. -/
theorem Env.sets_congr {x : Var} : ∀ {ρ σ : Env} {xs : List Var} {vs : List Val}, xs.length = vs.length →
    (x ∉ xs → σ x = ρ x) → σ.sets xs vs x = ρ.sets xs vs x
  | _, _, [], [], _, h => h List.not_mem_nil
  | ρ, σ, y :: xs, v :: vs, hlen, h => by
    refine sets_congr (ρ := ρ.set y v) (σ := σ.set y v) (Nat.succ.inj hlen) fun hx => ?_
    by_cases hxy : x = y
    · rw [hxy, set_self, set_self]
    · rw [set_of_ne hxy, set_of_ne hxy, h (by simp [hxy, hx])]

/-! ## What is seen of a run -/

/-- How a state ended, if it has, and what the world has seen. -/
def State.seen : State → Option (Result (List Val) (List Val)) × Trace
  | running _ _ t => (none, t)
  | ended r t => (some r, t)

namespace Program

variable (W : World) (G : Env)

/-- The program comes to a state that has no next one, in which this is seen. -/
def Halts (p : Program) (o : Option (Result (List Val) (List Val)) × Trace) : Prop :=
  ∃ s, p.Reaches W G s ∧ s.step W p G = none ∧ s.seen = o

/-- The program comes to a state in which the world has seen this much. -/
def Shows (p : Program) (t : Trace) : Prop := ∃ s, p.Reaches W G s ∧ s.seen.2 = t

/-- **The programs run the same**: they end, or get stuck, with the same to be seen, and however long they run the
world sees the same. -/
structure SameRuns (p p' : Program) : Prop where
  halts : ∀ o, p.Halts W G o ↔ p'.Halts W G o
  shows : ∀ t, p.Shows W G t ↔ p'.Shows W G t

end Program

/-- A right-hand side shows the world one thing at most. -/
theorem Exp.eval_trace (W : World) (ρ : Env) (e : Exp) (t : Trace) :
    (e.eval W ρ t).2 = t ∨ ∃ ev, (e.eval W ρ t).2 = t ++ [ev] := by
  cases e with
  | conApp con args mode => exact .inl (by simp only [eval]; split <;> rfl)
  | const c => exact .inl rfl
  | primApp prim targs mode args =>
    simp only [eval]
    split
    · exact .inr ⟨_, rfl⟩
    · exact .inl rfl
  | profile e => exact .inr ⟨_, rfl⟩
  | select x offset => exact .inl (by simp only [eval]; split <;> rfl)
  | tuple exps mode => exact .inl (by simp only [eval]; split <;> rfl)
  | var x => exact .inl (by simp only [eval]; split <;> rfl)

namespace State

variable {W : World} {G : Env} {p : Program} {s s' : State} {fr : Frame} {stack : List Waiting} {t : Trace}
  {vs : List Val}

/-- A frame that goes on shows nothing. -/
theorem seen_of_map {o : Option Frame} (h : o.map (running · stack t) = some s) : s.seen.2 = t := by
  obtain ⟨fr, -, rfl⟩ := Option.map_eq_some_iff.mp h
  rfl

theorem seen_comeBack : ∀ {stack : List Waiting}, comeBack vs t stack = some s → s.seen.2 = t
  | [], h => by
    cases h
    rfl
  | ⟨_, .nonTail _ _⟩ :: _, h => seen_of_map h

theorem seen_throw : ∀ stack : List Waiting, throw vs t stack = some s → s.seen.2 = t
  | [], h => by
    cases h
    rfl
  | ⟨_, .nonTail _ (.handle _)⟩ :: _, h => seen_of_map h
  | ⟨_, .nonTail _ .caller⟩ :: stack, h => seen_throw stack h

theorem seen_transfer {tr : Transfer} (h : tr.step W p G fr stack t = some s) :
    s.seen.2 = t ∨ ∃ ev, s.seen.2 = t ++ [ev] := by
  cases tr with
  | bug =>
    cases h
    exact .inl rfl
  | call args func k =>
    simp only [Transfer.step, Option.bind_eq_bind, Option.bind_eq_some_iff] at h
    obtain ⟨vs, -, f, -, callee, -, h⟩ := h
    split at h <;> cases h <;> exact .inl rfl
  | case test cases default =>
    simp only [Transfer.step, Option.bind_eq_bind, Option.bind_eq_some_iff] at h
    obtain ⟨v, -, lvs, -, fr', -, h⟩ := h
    cases h
    exact .inl rfl
  | goto dst args =>
    simp only [Transfer.step, Option.bind_eq_bind, Option.bind_eq_some_iff] at h
    obtain ⟨vs, -, fr', -, h⟩ := h
    cases h
    exact .inl rfl
  | raise xs =>
    obtain ⟨vs, -, h⟩ := Option.bind_eq_some_iff.mp h
    exact .inl (seen_throw stack h)
  | ret xs =>
    obtain ⟨vs, -, h⟩ := Option.bind_eq_some_iff.mp h
    exact .inl (seen_comeBack h)
  | runtime prim args l =>
    obtain ⟨vs, -, h⟩ := Option.bind_eq_some_iff.mp h
    rw [World.runtimeCall] at h
    split at h
    · next _ _ heq =>
      obtain ⟨-, rfl⟩ := Prod.mk.inj heq
      obtain ⟨fr', -, h⟩ := Option.bind_eq_some_iff.mp h
      cases h
      exact .inr ⟨_, rfl⟩
    · next _ _ _ heq =>
      obtain ⟨-, rfl⟩ := Prod.mk.inj heq
      cases h
      exact .inr ⟨_, rfl⟩

/-- **A step shows the world one thing at most.** -/
theorem seen_step (h : s.step W p G = some s') : s'.seen.2 = s.seen.2 ∨ ∃ ev, s'.seen.2 = s.seen.2 ++ [ev] := by
  cases s with
  | ended => cases h
  | running fr stack t =>
    obtain ⟨b, -, h⟩ := Option.bind_eq_some_iff.mp h
    split at h
    · exact seen_transfer h
    · next st _ =>
      have htrace := st.exp.eval_trace W fr.env t
      split at h
      · next heval =>
        cases h
        rwa [heval] at htrace
      · next heval =>
        cases h
        rwa [heval] at htrace
      · cases h

/-- What has been seen stays seen. -/
theorem seen_steps (h : Steps (State.step W p G) s s') : s.seen.2 <+: s'.seen.2 := by
  induction h with
  | refl => exact List.prefix_rfl
  | tail _ hstep ih =>
    obtain heq | ⟨ev, heq⟩ := seen_step hstep
    · exact heq ▸ ih
    · exact heq ▸ ih.trans (List.prefix_append _ _)

/-- **Whatever came first has been shown.** -/
theorem shows_of_prefix (h : p.Reaches W G s) : ∀ {t : Trace}, t <+: s.seen.2 → p.Shows W G t := by
  induction h with
  | @init s hinit =>
    intro t ht
    have hnil : s.seen.2 = [] := by
      obtain ⟨f, -, h⟩ := Option.bind_eq_some_iff.mp hinit
      exact seen_of_map h
    exact ⟨s, .init hinit, by rw [hnil] at ht ⊢; exact (List.prefix_nil.mp ht).symm⟩
  | @step s s' hs hstep ih =>
    intro t ht
    obtain heq | ⟨ev, heq⟩ := seen_step hstep
    · exact ih (heq ▸ ht)
    · rw [heq, List.prefix_concat_iff] at ht
      obtain rfl | ht := ht
      · exact ⟨s', hs.step hstep, heq⟩
      · exact ih ht

end State

/-! ## Where transfers go -/

/-- A transfer that the world does not see, and after which nothing waits that did not wait before. -/
def Transfer.isQuiet : Transfer → Bool
  | .call _ _ .tail | .case _ _ _ | .goto _ _ => true
  | _ => false

section Goes

variable (p : Program) (G : Env)

/-- The activation of the function of a name. -/
def Program.activation (func : Func) (vs : List Val) : Option Frame := (p.function? func).bind (·.activate G vs)

/-- The activation that a call makes. -/
def Frame.calls (fr : Frame) (args : List Var) (func : Func) : Option Frame :=
  (fr.env.all args).bind (p.activation G func)

/-- Where a quiet transfer goes. -/
def Frame.goes (fr : Frame) : Transfer → Option Frame
  | .call args func .tail => fr.calls p G args func
  | .case test cases default => (fr.env test).bind fun v => (cases.target v default).bind fun lvs => fr.enter lvs.1 lvs.2
  | .goto dst args => fr.enters dst args
  | _ => none

end Goes

section

variable {W : World} {p : Program} {G : Env} {fr fr' : Frame} {tr : Transfer} {stack : List Waiting} {t : Trace}

theorem Transfer.step_of_isQuiet (h : tr.isQuiet = true) :
    tr.step W p G fr stack t = (fr.goes p G tr).map (.running · stack t) := by
  cases tr with
  | call args func k =>
    cases k with
    | tail => simp [step, Frame.goes, Frame.calls, Program.activation, Option.map_eq_bind, Option.bind_assoc]
    | dead | nonTail => cases h
  | case | goto =>
    simp [step, Frame.goes, Frame.enters, Option.map_eq_bind, Option.bind_assoc]
  | bug | raise | ret | runtime => cases h

/-- A quiet transfer is a quiet step. -/
theorem Frame.quiet_of_goes (hat : fr.At tr) (hquiet : tr.isQuiet = true) (h : fr.goes p G tr = some fr') :
    fr.Quiet W p G fr' := fun stack t => by
  rw [State.step_transfer hat, Transfer.step_of_isQuiet hquiet, h]
  rfl

/-- A call makes an activation, and waits for it unless it is a tail call. -/
theorem Transfer.step_call {args : List Var} {func : Func} {k : Return} (hk : k ≠ .tail) :
    (Transfer.call args func k).step W p G fr stack t = (fr.calls p G args func).map (.running · (⟨fr, k⟩ :: stack) t) := by
  cases k with
  | tail => exact absurd rfl hk
  | dead | nonTail =>
    simp [step, Frame.calls, Program.activation, Option.map_eq_bind, Option.bind_assoc]

end

/-! ## Activations that land together -/

section Lands

variable (W : World) (p' : Program) (G : Env) (F : Frame → Frame → Prop)

/-- **The second activation lands where the first does**, if the first goes anywhere: it goes somewhere as well, and comes
quietly to an activation that has with the first in common what `F` says. -/
def Lands : Option Frame → Option Frame → Prop
  | none, o' => o' = none
  | some fr, o' => ∃ fr₁ fr', o' = some fr₁ ∧ Relation.ReflTransGen (Frame.Quiet W p' G) fr₁ fr' ∧ F fr fr'

/-- Handlers of waiting activations that do the same with what is raised. -/
inductive Handler.Waits (fr fr' : Frame) : Handler → Handler → Prop
  | caller : Waits fr fr' .caller .caller
  | dead : Waits fr fr' .dead .dead
  | handle {l l' : Label} : (∀ vs, Lands W p' G F (fr.enter l vs) (fr'.enter l' vs)) →
      Waits fr fr' (.handle l) (.handle l')

/-- Activations that wait for a call, and then do the same. -/
inductive Return.Waits (fr fr' : Frame) : Return → Return → Prop
  | dead : Waits fr fr' .dead .dead
  | nonTail {cont cont' : Label} {handler handler' : Handler} :
      (∀ vs, Lands W p' G F (fr.enter cont vs) (fr'.enter cont' vs)) → Handler.Waits W p' G F fr fr' handler handler' →
      Waits fr fr' (.nonTail cont handler) (.nonTail cont' handler')

/-- **States abreast**: the activations have in common what `F` says, those that wait will do the same, and the world
has seen the same. -/
inductive State.Abreast : State → State → Prop
  | running {fr fr' stack stack' t} : F fr fr' →
      List.Forall₂ (fun w w' : Waiting => Return.Waits W p' G F w.frame w'.frame w.ret w'.ret) stack stack' →
      Abreast (.running fr stack t) (.running fr' stack' t)
  | ended (r : Result (List Val) (List Val)) (t : Trace) : Abreast (.ended r t) (.ended r t)

variable (p : Program)

/-- **Transfers that take two activations to the same**: they are of one kind, with the same values, and land
together; or they are quiet, of whatever kind, and land together. -/
inductive Transfer.Takes (fr fr' : Frame) : Transfer → Transfer → Prop
  | bug : Takes fr fr' .bug .bug
  | call {args args' : List Var} {func func' : Func} {k k' : Return} :
      Lands W p' G F (fr.calls p G args func) (fr'.calls p' G args' func') → Return.Waits W p' G F fr fr' k k' →
      Takes fr fr' (.call args func k) (.call args' func' k')
  | quiet {tr tr' : Transfer} : tr.isQuiet = true → tr'.isQuiet = true →
      Lands W p' G F (fr.goes p G tr) (fr'.goes p' G tr') → Takes fr fr' tr tr'
  | raise {xs xs' : List Var} : fr'.env.all xs' = fr.env.all xs → Takes fr fr' (.raise xs) (.raise xs')
  | ret {xs xs' : List Var} : fr'.env.all xs' = fr.env.all xs → Takes fr fr' (.ret xs) (.ret xs')
  | runtime {prim : Prim} {args args' : List Var} {l l' : Label} : fr'.env.all args' = fr.env.all args →
      (∀ vs, Lands W p' G F (fr.enter l vs) (fr'.enter l' vs)) →
      Takes fr fr' (.runtime prim args l) (.runtime prim args' l')

/-- **What activations of the two programs have in common**: `F` relates them, and `I` is what is known of those of
the first. -/
structure Detours (I : Frame → Prop) : Prop where
  main : Lands W p' G F (p.activation G p.main []) (p'.activation G p'.main [])
  block : ∀ {fr fr'}, F fr fr' → I fr → ∃ b, fr.func.block? fr.label = some b
  statement : ∀ {fr fr' b s}, F fr fr' → I fr → fr.func.block? fr.label = some b → b.statements[fr.index]? = some s →
    ∃ b', fr'.func.block? fr'.label = some b' ∧ b'.statements[fr'.index]? = some s ∧
      (∀ x ∈ s.exp.vars, fr'.env x = fr.env x) ∧ ∀ v, F (fr.advance s v) (fr'.advance s v)
  transfer : ∀ {fr fr' tr}, F fr fr' → I fr → fr.At tr → ∃ fr₁ tr',
    Relation.ReflTransGen (Frame.Quiet W p' G) fr' fr₁ ∧ fr₁.At tr' ∧ Transfer.Takes W p' G F p fr fr₁ tr tr'

end Lands

/-! ## Transfers with other labels -/

section Relabels

variable (R : Label → Label → Prop)

/-- Handlers that go to labels that correspond. -/
inductive Handler.Relabels : Handler → Handler → Prop
  | caller : Relabels .caller .caller
  | dead : Relabels .dead .dead
  | handle {l l' : Label} : R l l' → Relabels (.handle l) (.handle l')

/-- Returns that go to labels that correspond. -/
inductive Return.Relabels : Return → Return → Prop
  | dead : Relabels .dead .dead
  | nonTail {cont cont' : Label} {handler handler' : Handler} : R cont cont' → Handler.Relabels R handler handler' →
      Relabels (.nonTail cont handler) (.nonTail cont' handler')
  | tail : Relabels .tail .tail

/-- Arms that go to labels that correspond. -/
inductive Cases.Relabels : Cases → Cases → Prop
  | con {cs cs' : List (Con × Label)} : List.Forall₂ (fun arm arm' => arm'.1 = arm.1 ∧ R arm.2 arm'.2) cs cs' →
      Relabels (.con cs) (.con cs')
  | word {size : ℕ} {cs cs' : List (ℕ × Label)} :
      List.Forall₂ (fun arm arm' => arm'.1 = arm.1 ∧ R arm.2 arm'.2) cs cs' → Relabels (.word size cs) (.word size cs')

/-- **Transfers that differ in their labels**, which correspond. -/
inductive Transfer.Relabels : Transfer → Transfer → Prop
  | bug : Relabels .bug .bug
  | call {args : List Var} {func : Func} {k k' : Return} : Return.Relabels R k k' →
      Relabels (.call args func k) (.call args func k')
  | case {test : Var} {cases cases' : Cases} {default default' : Option Label} : Cases.Relabels R cases cases' →
      Option.Rel R default default' → Relabels (.case test cases default) (.case test cases' default')
  | goto {dst dst' : Label} {args : List Var} : R dst dst' → Relabels (.goto dst args) (.goto dst' args)
  | raise (xs : List Var) : Relabels (.raise xs) (.raise xs)
  | ret (xs : List Var) : Relabels (.ret xs) (.ret xs)
  | runtime {prim : Prim} {args : List Var} {l l' : Label} : R l l' →
      Relabels (.runtime prim args l) (.runtime prim args l')

variable {R}

/-- The arms select what corresponds. -/
theorem rel_find?_arm {κ : Type} [DecidableEq κ] {cs cs' : List (κ × Label)} (k : κ)
    (h : List.Forall₂ (fun arm arm' => arm'.1 = arm.1 ∧ R arm.2 arm'.2) cs cs') :
    Option.Rel R ((cs.find? (·.1 = k)).map Prod.snd) ((cs'.find? (·.1 = k)).map Prod.snd) :=
  rel_map (Fold.rel_find? (fun h => h.1) h k) fun h => h.2

/-- A case goes where labels correspond, with the same values. -/
theorem Cases.Relabels.target {cases cases' : Cases} {default default' : Option Label} (h : cases.Relabels R cases')
    (hdefault : Option.Rel R default default') (v : Val) :
    Option.Rel (fun lvs lvs' => R lvs.1 lvs'.1 ∧ lvs'.2 = lvs.2) (cases.target v default) (cases'.target v default') := by
  have hdef : ∀ vs : List Val, Option.Rel (fun lvs lvs' : Label × List Val => R lvs.1 lvs'.1 ∧ lvs'.2 = lvs.2)
      (default.map (·, vs)) (default'.map (·, vs)) := fun vs => rel_map hdefault fun h => ⟨h, rfl⟩
  cases h with
  | @con cs cs' h =>
    simp only [Cases.target, conArm]
    cases v with
    | con con vs =>
      have hfind := Fold.rel_find? (fun h => h.1) h con
      dsimp only
      generalize cs.find? (·.1 = con) = o at hfind ⊢
      generalize cs'.find? (·.1 = con) = o' at hfind ⊢
      cases hfind with
      | none => exact hdef []
      | some h => exact .some ⟨h.2, rfl⟩
    | const | other | tuple => exact hdef []
  | @word size cs cs' h =>
    simp only [Cases.target, wordArm]
    cases v with
    | const c =>
      cases c with
      | word _ w =>
        have hfind := rel_find?_arm w h
        dsimp only
        generalize (cs.find? (·.1 = w)).map Prod.snd = o at hfind ⊢
        generalize (cs'.find? (·.1 = w)).map Prod.snd = o' at hfind ⊢
        cases hfind with
        | none => exact hdef []
        | some h => exact .some ⟨h, rfl⟩
      | _ => exact hdef []
    | con | other | tuple => exact hdef []

/-- Labels that correspond to themselves may stay. -/
theorem Transfer.Relabels.self {tr : Transfer} (h : ∀ l ∈ tr.labels, R l l) : tr.Relabels R tr := by
  cases tr with
  | bug => exact .bug
  | raise xs => exact .raise xs
  | ret xs => exact .ret xs
  | goto dst args => exact .goto (h dst (List.mem_singleton_self _))
  | runtime prim args l => exact .runtime (h l (List.mem_singleton_self _))
  | call args func k =>
    cases k with
    | dead => exact .call .dead
    | tail => exact .call .tail
    | nonTail cont handler =>
      refine .call (.nonTail (h cont (List.mem_cons_self ..)) ?_)
      cases handler with
      | caller => exact .caller
      | dead => exact .dead
      | handle l => exact .handle (h l (List.mem_cons_of_mem _ (List.mem_singleton_self _)))
  | case test cases default =>
    have hdefault : Option.Rel R default default := by
      cases default with
      | none => exact .none
      | some l => exact .some (h l (by simp [labels]))
    cases cases with
    | con cs =>
      refine .case (.con (List.forall₂_same.mpr fun arm harm => ⟨rfl, h _ ?_⟩)) hdefault
      exact List.mem_append_left _ (List.mem_map_of_mem harm)
    | word size cs =>
      refine .case (.word (List.forall₂_same.mpr fun arm harm => ⟨rfl, h _ ?_⟩)) hdefault
      exact List.mem_append_left _ (List.mem_map_of_mem harm)

variable {W : World} {p p' : Program} {G : Env} {F : Frame → Frame → Prop} {fr fr' : Frame}

theorem Handler.Relabels.waits {handler handler' : Handler} (h : Handler.Relabels R handler handler')
    (hl : ∀ l ∈ handler.labels, ∀ l', R l l' → ∀ vs, Lands W p' G F (fr.enter l vs) (fr'.enter l' vs)) :
    Handler.Waits W p' G F fr fr' handler handler' := by
  cases h with
  | caller => exact .caller
  | dead => exact .dead
  | handle h => exact .handle fun vs => hl _ (List.mem_singleton_self _) _ h vs

/-- **A transfer whose labels lead to the same** takes both programs to the same. -/
theorem Transfer.Relabels.takes {tr tr' : Transfer} (h : tr.Relabels R tr') (henv : ∀ x ∈ tr.vars, fr'.env x = fr.env x)
    (hl : ∀ l ∈ tr.labels, ∀ l', R l l' → ∀ vs, Lands W p' G F (fr.enter l vs) (fr'.enter l' vs))
    (hcalls : ∀ args func k vs, tr = .call args func k → Lands W p' G F (p.activation G func vs) (p'.activation G func vs)) :
    Transfer.Takes W p' G F p fr fr' tr tr' := by
  have hcall : ∀ {args func k}, tr = .call args func k →
      Lands W p' G F (fr.calls p G args func) (fr'.calls p' G args func) := by
    rintro args func k rfl
    have hargs : fr'.env.all args = fr.env.all args := Env.all_congr henv
    rw [Frame.calls, Frame.calls, hargs]
    cases fr.env.all args with
    | none => rfl
    | some vs => exact hcalls args func k vs rfl
  cases h with
  | bug => exact .bug
  | call hk =>
    cases hk with
    | dead => exact .call (hcall rfl) .dead
    | tail => exact .quiet rfl rfl (hcall rfl)
    | nonTail hcont hhandler =>
      refine .call (hcall rfl) (.nonTail (fun vs => hl _ (List.mem_cons_self ..) _ hcont vs)
        (Handler.Relabels.waits hhandler fun l hl' => ?_))
      exact hl l (List.mem_cons_of_mem _ hl')
  | @case test cases cases' default default' hcases hdefault =>
    refine .quiet rfl rfl ?_
    rw [Frame.goes, Frame.goes, henv test (List.mem_singleton_self _)]
    cases fr.env test with
    | none => rfl
    | some v =>
      have htarget := hcases.target hdefault v
      rw [Option.bind_some, Option.bind_some]
      cases hsome : cases.target v default with
      | none =>
        rw [hsome] at htarget
        generalize cases'.target v default' = o' at htarget ⊢
        cases htarget
        rfl
      | some lvs =>
        obtain ⟨lvs', hlvs', hR, heq⟩ := exists_of_rel htarget hsome
        rw [hlvs', Option.bind_some, Option.bind_some, heq]
        exact hl _ (Cases.target_mem hsome) _ hR _
  | @goto dst dst' args h =>
    refine .quiet rfl rfl ?_
    have hargs : fr'.env.all args = fr.env.all args := Env.all_congr henv
    rw [Frame.goes, Frame.goes, Frame.enters, Frame.enters, hargs]
    cases fr.env.all args with
    | none => rfl
    | some vs => exact hl _ (List.mem_singleton_self _) _ h vs
  | raise xs => exact .raise (Env.all_congr henv)
  | ret xs => exact .ret (Env.all_congr henv)
  | runtime h => exact .runtime (Env.all_congr henv) fun vs => hl _ (List.mem_singleton_self _) _ h vs

end Relabels

/-! ## One step -/

section Steps

variable {W : World} {p p' : Program} {G : Env} {I : Frame → Prop} {F : Frame → Frame → Prop} {fr fr' : Frame}
  {stack stack' : List Waiting} {t : Trace}

/-- What a step of the first program comes to: the second does not step, or comes in steps to a state abreast. -/
def Abides (W : World) (p' : Program) (G : Env) (F : Frame → Frame → Prop) (next next' : Option State) : Prop :=
  match next with
  | none => next' = none
  | some s₁ => ∃ s₂ s₁', next' = some s₂ ∧ Steps (State.step W p' G) s₂ s₁' ∧ State.Abreast W p' G F s₁ s₁'

theorem Abides.ended (r : Result (List Val) (List Val)) (t : Trace) :
    Abides W p' G F (some (.ended r t)) (some (.ended r t)) :=
  ⟨_, _, rfl, .refl, .ended r t⟩

/-- Activations that land together are abreast. -/
theorem Lands.abides {o o' : Option Frame} (h : Lands W p' G F o o')
    (hstack : List.Forall₂ (fun w w' : Waiting => Return.Waits W p' G F w.frame w'.frame w.ret w'.ret) stack stack') :
    Abides W p' G F (o.map (State.running · stack t)) (o'.map (State.running · stack' t)) := by
  cases o with
  | none =>
    cases h
    rfl
  | some fr =>
    obtain ⟨fr₁, fr', rfl, hquiet, hF⟩ := h
    exact ⟨_, _, rfl, Frame.Quiet.steps hquiet stack' t, .running hF hstack⟩

/-- A call comes back on both sides. -/
theorem abides_comeBack (vs : List Val)
    (hstack : List.Forall₂ (fun w w' : Waiting => Return.Waits W p' G F w.frame w'.frame w.ret w'.ret) stack stack') :
    Abides W p' G F (State.comeBack vs t stack) (State.comeBack vs t stack') := by
  cases hstack with
  | nil => exact .ended _ _
  | @cons w w' _ _ hw hstack =>
    obtain ⟨fr, ret⟩ := w
    obtain ⟨fr', ret'⟩ := w'
    cases hw with
    | dead => rfl
    | nonTail hcont _ => exact (hcont vs).abides hstack

/-- An exception goes up on both sides, by induction on what waits. -/
theorem abides_throw (vs : List Val)
    (hstack : List.Forall₂ (fun w w' : Waiting => Return.Waits W p' G F w.frame w'.frame w.ret w'.ret) stack stack') :
    Abides W p' G F (State.throw vs t stack) (State.throw vs t stack') := by
  induction hstack with
  | nil => exact .ended _ _
  | @cons w w' _ _ hw hstack ih =>
    obtain ⟨fr, ret⟩ := w
    obtain ⟨fr', ret'⟩ := w'
    cases hw with
    | dead => rfl
    | nonTail _ hhandler =>
      cases hhandler with
      | caller => exact ih
      | dead => rfl
      | handle hl => exact (hl vs).abides hstack

/-- **Transfers** take both programs to the same. -/
theorem Transfer.Takes.abides {tr tr' : Transfer} (h : Transfer.Takes W p' G F p fr fr' tr tr')
    (hstack : List.Forall₂ (fun w w' : Waiting => Return.Waits W p' G F w.frame w'.frame w.ret w'.ret) stack stack') :
    Abides W p' G F (tr.step W p G fr stack t) (tr'.step W p' G fr' stack' t) := by
  cases h with
  | bug => exact .ended _ _
  | call hcalls hwaits =>
    have hk : ∀ {k k'}, Return.Waits W p' G F fr fr' k k' → k ≠ .tail ∧ k' ≠ .tail := by
      rintro _ _ (_ | _) <;> exact ⟨nofun, nofun⟩
    rw [step_call (hk hwaits).1, step_call (hk hwaits).2]
    exact hcalls.abides (.cons hwaits hstack)
  | quiet hquiet hquiet' hgoes =>
    rw [step_of_isQuiet hquiet, step_of_isQuiet hquiet']
    exact hgoes.abides hstack
  | @raise xs xs' hxs =>
    simp only [step, Option.bind_eq_bind, hxs]
    cases fr.env.all xs with
    | none => rfl
    | some vs => exact abides_throw vs hstack
  | @ret xs xs' hxs =>
    simp only [step, Option.bind_eq_bind, hxs]
    cases fr.env.all xs with
    | none => rfl
    | some vs => exact abides_comeBack vs hstack
  | @runtime prim args args' l l' hargs hl =>
    simp only [step, Option.bind_eq_bind, hargs]
    cases fr.env.all args with
    | none => rfl
    | some vs =>
      simp only [Option.bind_some, World.runtimeCall]
      cases W.runtime t prim vs with
      | none => exact .ended _ _
      | some rs => simpa [Option.map_eq_bind, Function.comp_def] using (hl rs).abides (t := t ++ [.runtime prim vs]) hstack

variable (hF : Detours W p' G F p I)

include hF

/-- **Statements** do the same. -/
theorem Detours.abides_statement {b : Block} {s : Statement} (h : F fr fr') (hI : I fr)
    (hb : fr.func.block? fr.label = some b) (hs : b.statements[fr.index]? = some s)
    (hstack : List.Forall₂ (fun w w' : Waiting => Return.Waits W p' G F w.frame w'.frame w.ret w'.ret) stack stack') :
    Abides W p' G F (State.step W p G (.running fr stack t)) (State.step W p' G (.running fr' stack' t)) := by
  obtain ⟨b', hb', hs', henv, hnext⟩ := hF.statement h hI hb hs
  simp only [State.step, Option.bind_eq_bind, hb, hb', Option.bind_some, hs, hs', Exp.eval_congr henv]
  obtain ⟨r, t'⟩ := s.exp.eval W fr.env t
  cases r with
  | value v => exact ⟨_, _, rfl, .refl, .running (hnext v) hstack⟩
  | gone => exact .ended _ _
  | _ => rfl

/-- **One step**: the second program comes to a state from which it answers it. -/
theorem Detours.step {s s' : State} (hheld : s.Held p I) (hs : State.Abreast W p' G F s s') :
    ∃ u', Steps (State.step W p' G) s' u' ∧ u'.seen = s.seen ∧
      Abides W p' G F (s.step W p G) (u'.step W p' G) := by
  cases hs with
  | ended r t => exact ⟨_, .refl, rfl, rfl⟩
  | @running fr fr' stack stack' t h hstack =>
    obtain ⟨hI, -⟩ := hheld
    obtain ⟨b, hb⟩ := hF.block h hI
    cases hs : b.statements[fr.index]? with
    | some st => exact ⟨_, .refl, rfl, hF.abides_statement h hI hb hs hstack⟩
    | none =>
      have hat : fr.At b.transfer := ⟨b, hb, hs, rfl⟩
      obtain ⟨fr₁, tr', hquiet, hat', htakes⟩ := hF.transfer h hI hat
      refine ⟨_, Frame.Quiet.steps hquiet stack' t, rfl, ?_⟩
      rw [State.step_transfer hat, State.step_transfer hat']
      exact htakes.abides hstack

/-- **The second program keeps up with the first.** -/
theorem Detours.keepsUp (hI : Kept W p G I) : KeepsUp (State.step W p G) (State.step W p' G) State.seen State.seen
    (State.Held p I) (State.Abreast W p' G F) where
  kept hheld hstep := State.held_step hI hheld hstep
  seen h := by
    cases h <;> rfl
  next {s s₁ s'} hheld hs hstep := by
    obtain ⟨u', hu', -, habides⟩ := hF.step hheld hs
    rw [hstep] at habides
    obtain ⟨s₂, s₁', hs₂, hsteps, habreast⟩ := habides
    exact ⟨s₁', .trans_right hu' (.head' hs₂ hsteps), habreast⟩
  stuck {s s'} hheld hs hstep := by
    obtain ⟨u', hu', hsee, habides⟩ := hF.step hheld hs
    rw [hstep] at habides
    exact ⟨u', hu', habides, hsee⟩

/-! ## Whole runs -/

/-- Both programs start, or neither does. -/
theorem Detours.start : (p.init G = none ↔ p'.init G = none) ∧ ∀ s, p.init G = some s →
    ∃ s₀ s', p'.init G = some s₀ ∧ Steps (State.step W p' G) s₀ s' ∧ State.Abreast W p' G F s s' := by
  have hinit : ∀ q : Program, q.init G = (q.activation G q.main []).map (State.running · [] []) := fun q => by
    rw [Program.init, Program.activation, Option.map_bind]
    rfl
  have habides : Abides W p' G F (p.init G) (p'.init G) := by
    rw [hinit, hinit]
    exact hF.main.abides .nil
  cases hs : p.init G with
  | none =>
    rw [hs] at habides
    exact ⟨⟨fun _ => habides, fun _ => rfl⟩, (by rintro _ ⟨⟩)⟩
  | some s =>
    rw [hs] at habides
    obtain ⟨s₀, s', hs₀, hsteps, habreast⟩ := habides
    exact ⟨⟨(by rintro ⟨⟩), fun h => by cases hs₀.symm.trans h⟩, fun s₁ hs₁ => ⟨s₀, s', hs₀, hsteps, by cases hs₁; exact habreast⟩⟩

omit hF in
theorem Program.Reaches.steps {s s' : State} (h : p.Reaches W G s) (hs : Steps (State.step W p G) s s') :
    p.Reaches W G s' := by
  induction hs with
  | refl => exact h
  | tail _ hstep ih => exact ih.step hstep

omit hF in
/-- What the second program reaches is on the way from, or to, where the two are abreast at the start. -/
theorem before_or_after {s₀ s' u' : State} (hs₀ : p'.init G = some s₀) (hs' : Steps (State.step W p' G) s₀ s')
    (hu : p'.Reaches W G u') : Steps (State.step W p' G) u' s' ∨ Steps (State.step W p' G) s' u' := by
  induction hu with
  | init hinit =>
    cases hs₀.symm.trans hinit
    exact .inl hs'
  | @step u v _ hstep ih =>
    obtain hbefore | hafter := ih
    · obtain rfl | ⟨w, huw, hw⟩ := Relation.ReflTransGen.cases_head hbefore
      · exact .inr (.single hstep)
      · obtain rfl := Option.some.inj (hstep.symm.trans huw)
        exact .inl hw
    · exact .inr (hafter.tail hstep)

/-- **The programs run the same.** -/
theorem Detours.sameRuns (hI : Kept W p G I) : p.SameRuns W G p' := by
  have hkeeps := hF.keepsUp hI
  -- from the start on, or from where the two are abreast
  have hstart : ∀ {u'}, p'.Reaches W G u' → ∃ s s', p.init G = some s ∧ State.Abreast W p' G F s s' ∧
      (Steps (State.step W p' G) u' s' ∨ Steps (State.step W p' G) s' u') := by
    intro u' hu
    obtain ⟨s₀, hs₀, -⟩ := Program.reaches_iff.mp hu
    obtain ⟨s, hs⟩ : ∃ s, p.init G = some s := Option.ne_none_iff_exists'.mp fun hnone => by
      cases hs₀.symm.trans (hF.start.1.mp hnone)
    obtain ⟨s₁, s', hs₁, hsteps, habreast⟩ := hF.start.2 s hs
    exact ⟨s, s', hs, habreast, before_or_after hs₁ hsteps hu⟩
  have hmatch : ∀ {s}, p.Reaches W G s → ∃ s₀ s', p.init G = some s₀ ∧ p'.Reaches W G s' ∧
      State.Abreast W p' G F s₀ s' ∧ Steps (State.step W p G) s₀ s := by
    intro s hs
    obtain ⟨s₀, hs₀, hsteps⟩ := Program.reaches_iff.mp hs
    obtain ⟨u₀, s', hu₀, hu, habreast⟩ := hF.start.2 s₀ hs₀
    exact ⟨s₀, s', hs₀, (Program.Reaches.init hu₀).steps hu, habreast, hsteps⟩
  have hheld : ∀ {s}, p.init G = some s → s.Held p I := fun hs => (Program.Reaches.init hs).held hI
  refine ⟨fun o => ⟨?_, ?_⟩, fun t => ⟨?_, ?_⟩⟩
  · rintro ⟨s, hs, hstuck, rfl⟩
    obtain ⟨s₀, s', hs₀, hs', habreast, hsteps⟩ := hmatch hs
    obtain ⟨u', hu', hstuck', hsee⟩ := hkeeps.halts (hheld hs₀) habreast hsteps hstuck
    exact ⟨u', hs'.steps hu', hstuck', hsee⟩
  · rintro ⟨u', hu', hstuck', rfl⟩
    obtain ⟨s₀, s', hs₀, habreast, hbefore | hafter⟩ := hstart hu'
    · obtain rfl | ⟨w, huw, -⟩ := Relation.ReflTransGen.cases_head hbefore
      · obtain ⟨s, hs, hstuck, hsee⟩ := hkeeps.halts_of (hheld hs₀) habreast .refl hstuck'
        exact ⟨s, (Program.Reaches.init hs₀).steps hs, hstuck, hsee.symm⟩
      · cases hstuck'.symm.trans huw
    · obtain ⟨s, hs, hstuck, hsee⟩ := hkeeps.halts_of (hheld hs₀) habreast hafter hstuck'
      exact ⟨s, (Program.Reaches.init hs₀).steps hs, hstuck, hsee.symm⟩
  · rintro ⟨s, hs, rfl⟩
    obtain ⟨s₀, s', hs₀, hs', habreast, hsteps⟩ := hmatch hs
    obtain ⟨u', hu', habreast'⟩ := hkeeps.reaches (hheld hs₀) habreast hsteps
    exact ⟨u', hs'.steps hu', congrArg Prod.snd (hkeeps.seen habreast')⟩
  · rintro ⟨u', hu', rfl⟩
    obtain ⟨s₀, s', hs₀, habreast, hbefore | hafter⟩ := hstart hu'
    · refine State.shows_of_prefix (Program.Reaches.init (W := W) hs₀) ?_
      rw [← congrArg Prod.snd (hkeeps.seen habreast)]
      exact State.seen_steps hbefore
    · obtain ⟨s, s₁', hs, hlevel, hu'⟩ := hkeeps.reaches_of (hheld hs₀) habreast hafter
      refine State.shows_of_prefix ((Program.Reaches.init (W := W) hs₀).steps hs) ?_
      rw [← congrArg Prod.snd (hkeeps.seen_of_level hlevel)]
      exact State.seen_steps hu'

end Steps

/-! ## Passes that send transfers another way -/

section Redirects

/-- **Activations at the same place** of functions that correspond, where the same is in scope. -/
structure Frame.Alike (globals : List Var) (R : Function → Function → Prop) (fr fr' : Frame) : Prop where
  func : R fr.func fr'.func
  label : fr'.label = fr.label
  index : fr'.index = fr.index
  env : ∀ {x}, fr.func.InScope globals x (fr.label, fr.index) → fr'.env x = fr.env x

/-- **Functions with their counterparts**: the blocks that were there keep their formals and their statements. -/
structure Counterparts (W : World) (p p' : Program) (G : Env) (globals : List Var) (R : Function → Function → Prop) :
    Prop where
  main : p'.main = p.main
  functions : Option.Rel R (p.function? p.main) (p'.function? p.main)
  activate : ∀ {f f'}, f ∈ p.functions → R f f' → ∀ vs,
    Lands W p' G (Frame.Alike globals R) (f.activate G vs) (f'.activate G vs)
  block : ∀ {f f' l i b}, f ∈ p.functions → R f f' → f.Reachable (l, i) → f.block? l = some b →
    ∃ b', f'.block? l = some b' ∧ b'.args = b.args ∧ b'.statements = b.statements

/-- **Passes that redirect transfers**: they take activations at the same place to activations at the same place. -/
structure Redirects (W : World) (p p' : Program) (G : Env) (globals : List Var) (R : Function → Function → Prop) : Prop
    extends Counterparts W p p' G globals R where
  transfer : ∀ {fr fr' tr}, fr.Alike globals R fr' → fr.Global W globals G p → fr.At tr → ∃ fr₁ tr',
    Relation.ReflTransGen (Frame.Quiet W p' G) fr' fr₁ ∧ fr₁.At tr' ∧
      Transfer.Takes W p' G (Frame.Alike globals R) p fr fr₁ tr tr'

variable {W : World} {p p' : Program} {G : Env} {globals : List Var} {R : Function → Function → Prop}
  {F : Frame → Frame → Prop} {fr fr' : Frame} {tr : Transfer} {l : Label} {vs : List Val}

theorem Lands.of_rel {o o' : Option Frame} (h : Option.Rel F o o') : Lands W p' G F o o' := by
  cases h with
  | some h => exact ⟨_, _, rfl, .refl, h⟩
  | none => rfl

/-- Functions with the same arguments are called alike. -/
theorem Frame.Alike.activate {f f' : Function} (hR : R f f') (hargs : f'.args = f.args) (hstart : f'.start = f.start)
    (vs : List Val) : Option.Rel (Frame.Alike globals R) (f.activate G vs) (f'.activate G vs) := by
  rw [Function.activate, Function.activate, hargs]
  split_ifs
  · exact .some ⟨hR, hstart, rfl, fun _ => rfl⟩
  · exact .none

/-- What is in scope behind a transfer is a formal of the block it goes to, or was in scope. -/
theorem Function.InScope.before {f : Function} {x : Var} {b c : Block} (h : f.InScope globals x (l, 0))
    {l₀ : Label} (hb : f.block? l₀ = some b) (hl : l ∈ b.transfer.labels)
    (hc : f.block? l = some c) (hx : x ∉ c.args.map Prod.fst) : f.InScope globals x (l₀, b.statements.length) := by
  by_cases hdef : f.Defines globals x (l, 0)
  · obtain hbinds | ⟨hgiven, -⟩ := hdef
    · cases hbinds with
      | formal hc' hx' =>
        obtain rfl := Option.some.inj (hc.symm.trans hc')
        exact absurd hx' hx
    · exact hgiven.inScope
  · exact h.pred (.transfer hb hl) hdef

/-- Activations with the same in scope go to the same block. -/
theorem Frame.Alike.enter {f' : Function} {l₀ l' : Label} {i : ℕ} {σ : Env} {b c c' : Block}
    (hR : R fr.func f') (hb : fr.func.block? l₀ = some b) (hl : l ∈ b.transfer.labels) (hc : fr.func.block? l = some c)
    (hc' : f'.block? l = some c') (hargs : c'.args = c.args)
    (henv : ∀ {x}, fr.func.InScope globals x (l₀, b.statements.length) → σ x = fr.env x) (vs : List Val) :
    Option.Rel (Frame.Alike globals R) (fr.enter l vs) (Frame.enter ⟨f', l', i, σ⟩ l vs) := by
  simp only [Frame.enter, hc, hc', Option.bind_some, hargs]
  split_ifs with hlen
  · refine .some ⟨hR, rfl, rfl, fun {x} hx => Env.sets_congr (by simpa using hlen) fun hmem => ?_⟩
    exact henv (hx.before hb hl hc hmem)
  · exact .none

theorem Counterparts.lands (h : Counterparts W p p' G globals R) {func : Func}
    (hrel : Option.Rel R (p.function? func) (p'.function? func)) (vs : List Val) :
    Lands W p' G (Frame.Alike globals R) (p.activation G func vs) (p'.activation G func vs) := by
  rw [Program.activation, Program.activation]
  cases hfunc : p.function? func with
  | none =>
    rw [hfunc] at hrel
    generalize p'.function? func = o' at hrel ⊢
    cases hrel
    rfl
  | some f =>
    obtain ⟨f', hf', hR⟩ := exists_of_rel hrel hfunc
    rw [hf', Option.bind_some, Option.bind_some]
    exact h.activate (Program.function?_mem hfunc) hR vs

variable (hscoped : p.Scoped globals)

include hscoped

/-- Both go from their transfers to the same block. -/
theorem Counterparts.enter (h : Counterparts W p p' G globals R) {g : Frame} (hR : R fr.func g.func)
    (henv : ∀ {x}, fr.func.InScope globals x (fr.label, fr.index) → g.env x = fr.env x)
    (hfr : fr.Defined W globals p) (hat : fr.At tr) (hl : l ∈ tr.labels) (vs : List Val) :
    Option.Rel (Frame.Alike globals R) (fr.enter l vs) (g.enter l vs) := by
  obtain ⟨b, hb, hnone, rfl⟩ := hat
  have hf := hscoped.functions _ hfr.func
  obtain ⟨c, hc⟩ := hf.targets hb l hl
  obtain ⟨c', hc', hargs, -⟩ := h.block hfr.func hR ((hfr.index hb hnone ▸ hfr.reach).tail (.transfer hb hl)) hc
  exact Frame.Alike.enter hR hb hl hc hc' hargs (fun hx => henv (hfr.index hb hnone ▸ hx)) vs

/-- What a transfer uses has the same values. -/
theorem Frame.Defined.env_transfer (hfr : fr.Defined W globals p) (hat : fr.At tr) {σ : Env}
    (henv : ∀ {x}, fr.func.InScope globals x (fr.label, fr.index) → σ x = fr.env x) : ∀ x ∈ tr.vars, σ x = fr.env x := by
  obtain ⟨b, hb, hnone, rfl⟩ := hat
  intro x hx
  refine henv ?_
  rw [hfr.index hb hnone]
  exact (hscoped.functions _ hfr.func).transfer hb hx

/-- **A transfer that stays** takes both programs to the same. -/
theorem Counterparts.takes (h : Counterparts W p p' G globals R) {g : Frame} (hR : R fr.func g.func)
    (henv : ∀ {x}, fr.func.InScope globals x (fr.label, fr.index) → g.env x = fr.env x)
    (hfr : fr.Defined W globals p) (hat : fr.At tr)
    (hcalls : ∀ args func k, tr = .call args func k → Option.Rel R (p.function? func) (p'.function? func)) :
    Transfer.Takes W p' G (Frame.Alike globals R) p fr g tr tr := by
  refine (Transfer.Relabels.self (R := Eq) fun _ _ => rfl).takes (hfr.env_transfer hscoped hat henv)
    (fun l hl l' heq vs => ?_) fun args func k vs htr => h.lands (hcalls args func k htr) vs
  exact heq ▸ .of_rel (h.enter hscoped hR henv hfr hat hl vs)

/-- **Passes that redirect transfers are detours.** -/
theorem Redirects.detours (h : Redirects W p p' G globals R) :
    Detours W p' G (Frame.Alike globals R) p (Frame.Global W globals G p) where
  main := h.main ▸ h.lands h.functions []
  block {fr fr'} _ hfr := by
    obtain ⟨b, hb⟩ := (hscoped.functions _ hfr.func).exists_block? hfr.reach
    exact ⟨b, hb⟩
  statement {fr fr' b s} hF hfr hb hs := by
    obtain ⟨b', hb', -, hss⟩ := h.block hfr.func hF.func hfr.reach hb
    refine ⟨b', hF.label ▸ hb', by rw [hss, hF.index]; exact hs, fun x hx => ?_, fun v => ?_⟩
    · exact hF.env ((hscoped.functions _ hfr.func).statement hb hs hx)
    · refine ⟨hF.func, hF.label, congrArg (· + 1) hF.index, fun {x} hx => ?_⟩
      by_cases hvar : s.var = some x
      · simp [Frame.advance, hvar]
      · have hbefore : fr.func.InScope globals x (fr.label, fr.index) := by
          by_cases hdef : fr.func.Defines globals x (fr.label, fr.index + 1)
          · obtain hbinds | ⟨hgiven, -⟩ := hdef
            · cases hbinds with
              | statement hb' hs' hx' =>
                obtain rfl := Option.some.inj (hb.symm.trans hb')
                obtain rfl := Option.some.inj (hs.symm.trans hs')
                exact absurd hx' hvar
            · exact hgiven.inScope
          · exact hx.pred (.statement hb (List.getElem?_eq_some_iff.mp hs).1) hdef
        have henv := hF.env hbefore
        cases hs : s.var with
        | none => simpa [Frame.advance, hs] using henv
        | some y =>
          have hne : x ≠ y := fun heq => hvar (heq ▸ hs)
          simpa [Frame.advance, hs, Env.set_of_ne hne] using henv
  transfer hF hfr hat := h.transfer hF hfr hat

/-- **A pass that redirects transfers keeps the runs of the program.** -/
theorem Redirects.sameRuns (h : Redirects W p p' G globals R) (hG : ∀ x ∈ globals, ∃ v, G x = some v) :
    p.SameRuns W G p' :=
  (h.detours hscoped).sameRuns (global_kept hscoped hG)

end Redirects

/-! ### A program with an edge, a loop and a block that nothing reaches -/

/-- A world in which nothing comes back. -/
def World.idle : World := ⟨fun _ _ _ => none, fun _ _ _ _ _ => none, fun _ _ _ => none⟩

/-- The one function goes from its start to three blocks: the second is also entered from the first and calls the function
again, the third returns the global. -/
def sample : Program where
  functions := [{
    args := []
    blocks := [
      { args := []
        label := ⟨0⟩
        statements := [⟨some ⟨1⟩, .word 32, .const (.word 32 1)⟩]
        transfer := .case ⟨1⟩ (.word 32 [(0, ⟨1⟩), (1, ⟨2⟩)]) (some ⟨3⟩) },
      ⟨[], ⟨1⟩, [], .goto ⟨2⟩ []⟩, ⟨[], ⟨2⟩, [], .call [] ⟨0⟩ .tail⟩, ⟨[], ⟨3⟩, [], .ret [⟨0⟩]⟩, ⟨[], ⟨4⟩, [], .ret [⟨0⟩]⟩]
    mayInline := true
    name := ⟨0⟩
    raises := none
    returns := some [.word 32]
    start := ⟨0⟩ }]
  main := ⟨0⟩

theorem scoped_sample : sample.Scoped [⟨0⟩] := Program.LocallyScoped.scoped (by decide)

theorem named_sample : sample.Named [⟨0⟩] 5 := .of_variables (by decide) (by decide)

/-- The global is bound. -/
def sampleEnv : Env := fun _ => some (.const (.word 32 7))

theorem bound_sample : ∀ x ∈ [(⟨0⟩ : Var)], ∃ v, sampleEnv x = some v := fun _ _ => ⟨_, rfl⟩

end MLton.Ssa
