import MLton.Ssa.Detours

/-!
# Ssa/IntroduceLoops — functions that call themselves in tail position get a loop

The function gets new arguments, which a new start passes to a block with the old ones; a tail call of the function itself
becomes a goto to that block.  What is in scope at the old start is the same in a new activation and in the old one, so
that the program runs as before (`introduceLoops_sameRuns`), and no function calls itself in tail position any more
(`introduceLoops_none`).
-/

namespace MLton.Ssa

open MLton.Effects MLton.Simulation

namespace IntroduceLoops

/-! ## The pass -/

/-- `Return.isTail`. -/
def Return.isTail : Return → Bool
  | .dead | .nonTail _ _ => false
  | .tail => true

/-- Whether the transfer is a tail call of the function. -/
def isTailCall (name : Func) : Transfer → Bool
  | .call _ func k => decide (name = func) && Return.isTail k
  | _ => false

/-- The reference `tailCallsItself`, as the loop over the blocks leaves it. -/
def tailCallsItself (f : Function) : Bool := f.blocks.foldl (fun r b => if isTailCall f.name b.transfer then true else r) false

/-- What becomes of a transfer. -/
def loopTransfer (name : Func) (loopName : Label) : Transfer → Transfer
  | .call args func k => if name = func ∧ Return.isTail k = true then .goto loopName args else .call args func k
  | transfer => transfer

/-- What becomes of a function. -/
def introduceLoop (f : Function) : StateM Supply Function :=
  if tailCallsItself f then do
    let newArgs ← f.args.mapM fun arg => do return (← Var.newNoname, arg.2)
    let loopName ← Label.newNoname
    let loopSName ← Label.newNoname
    let blocks := f.blocks.map fun b => { b with transfer := loopTransfer f.name loopName b.transfer }
    let start : Block := ⟨[], loopSName, [], .goto loopName (newArgs.map Prod.fst)⟩
    let loop : Block := ⟨f.args, loopName, [], .goto f.start []⟩
    return { f with args := newArgs, blocks := start :: loop :: blocks, start := loopSName }
  else pure f

/-- `transform`. -/
def transform (p : Program) : StateM Supply Program := do
  let functions ← p.functions.mapM introduceLoop
  return { p with functions := functions.reverse }

/-! ## The rewritten function -/

/-- The function with a loop. -/
def looped (f : Function) (n : ℕ) : Function where
  args := freshArgs f.args n
  blocks := ⟨[], ⟨n + f.args.length + 1⟩, [], .goto ⟨n + f.args.length⟩ ((freshArgs f.args n).map Prod.fst)⟩ ::
    ⟨f.args, ⟨n + f.args.length⟩, [], .goto f.start []⟩ ::
    f.blocks.map fun b => { b with transfer := loopTransfer f.name ⟨n + f.args.length⟩ b.transfer }
  mayInline := f.mayInline
  name := f.name
  raises := f.raises
  returns := f.returns
  start := ⟨n + f.args.length + 1⟩

/-- **The rewritten function** has a loop, if the function calls itself in tail position. -/
def Made (lo hi : ℕ) (f f' : Function) : Prop :=
  (tailCallsItself f = false ∧ f' = f) ∨ (f' = looped f lo ∧ lo + f.args.length + 2 ≤ hi)

theorem made_introduceLoop (f : Function) (n : ℕ) :
    n ≤ ((introduceLoop f).run n).2 ∧ Made n ((introduceLoop f).run n).2 f ((introduceLoop f).run n).1 := by
  rw [introduceLoop]
  split_ifs with h
  · have hargs := run_freshArgs f.args n
    simp only [StateT.run_bind, hargs]
    exact ⟨Nat.le_add_right n (f.args.length + 2), .inr ⟨rfl, le_rfl⟩⟩
  · exact ⟨le_rfl, .inl ⟨Bool.not_eq_true _ ▸ h, rfl⟩⟩

section Function

variable {lo hi : ℕ} {f f' : Function} {l : Label} {b : Block}

theorem Made.name (h : Made lo hi f f') : f'.name = f.name := by
  obtain ⟨-, rfl⟩ | ⟨rfl, -⟩ := h <;> rfl

theorem tailCallsItself_iff : tailCallsItself f = true ↔ ∃ b ∈ f.blocks, isTailCall f.name b.transfer = true := by
  suffices ∀ (bs : List Block) (r : Bool), bs.foldl (fun r b => if isTailCall f.name b.transfer then true else r) r = true ↔
      r = true ∨ ∃ b ∈ bs, isTailCall f.name b.transfer = true by
    simpa [tailCallsItself] using this f.blocks false
  intro bs
  induction bs with
  | nil => simp
  | cons b bs ih =>
    intro r
    rw [List.foldl_cons, ih]
    by_cases h : isTailCall f.name b.transfer = true <;> simp [h]

theorem isTailCall_loopTransfer (name : Func) (loopName : Label) (tr : Transfer) :
    isTailCall name (loopTransfer name loopName tr) = false := by
  cases tr with
  | call args func k =>
    rw [loopTransfer]
    split_ifs with h
    · rfl
    · simpa [isTailCall] using h
  | _ => rfl

/-- **The rewritten function does not call itself** in tail position. -/
theorem Made.not_tailCallsItself (h : Made lo hi f f') : tailCallsItself f' = false := by
  obtain ⟨hnone, rfl⟩ | ⟨rfl, -⟩ := h
  · exact hnone
  · refine Bool.eq_false_iff.mpr fun htrue => ?_
    obtain ⟨b, hb, hcall⟩ := tailCallsItself_iff.mp htrue
    obtain rfl | hb := List.mem_cons.mp hb
    · cases hcall
    obtain rfl | hb := List.mem_cons.mp hb
    · cases hcall
    obtain ⟨c, -, rfl⟩ := List.mem_map.mp hb
    cases (isTailCall_loopTransfer f.name _ c.transfer).symm.trans hcall

theorem block?_loopS : (looped f lo).block? ⟨lo + f.args.length + 1⟩ = some
    ⟨[], ⟨lo + f.args.length + 1⟩, [], .goto ⟨lo + f.args.length⟩ ((freshArgs f.args lo).map Prod.fst)⟩ := by
  simp [Function.block?, looped]

theorem block?_loop : (looped f lo).block? ⟨lo + f.args.length⟩ =
    some ⟨f.args, ⟨lo + f.args.length⟩, [], .goto f.start []⟩ := by
  simp [Function.block?, looped]

/-- The old blocks stay, but for their transfers. -/
theorem block?_looped (hl : l.id < lo) (hb : f.block? l = some b) : (looped f lo).block? l =
    some { b with transfer := loopTransfer f.name ⟨lo + f.args.length⟩ b.transfer } := by
  have hne : ∀ m, (⟨lo + f.args.length + m⟩ : Label) ≠ l := fun m h => by
    have := congrArg Label.id h
    simp only at this
    omega
  rw [Function.block?, looped, List.find?_cons_of_neg (by simpa using hne 1), List.find?_cons_of_neg (by simpa using hne 0),
    List.find?_map]
  exact congrArg (Option.map _) hb

end Function

/-! ## The rewritten program -/

section Programs

variable {W : World} {G : Env} {globals : List Var} {n : ℕ} {p : Program}

theorem drawn_transform (p : Program) (n : ℕ) : ∃ fs hi,
    Drawn Made n p.functions fs hi ∧ ((transform p).run n).1 = { p with functions := fs.reverse } :=
  ⟨_, _, .of_mapM le_rfl fun f _ m _ => made_introduceLoop f m, rfl⟩

/-- **The loop is entered as the function is called.** -/
theorem lands_loop {q : Program} {R : Function → Function → Prop} {f : Function} {lo : ℕ} (hf : f.Scoped globals)
    (hR : R f (looped f lo)) (hlo : ∀ l ∈ f.blocks.map Block.label, l.id < lo) {l : Label} {i : ℕ} {σ : Env}
    (hσ : ∀ x ∈ globals, x ∉ f.args.map Prod.fst → σ x = G x) (vs : List Val) :
    Lands W q G (Frame.Alike globals R) (f.activate G vs)
      (Frame.enter ⟨looped f lo, l, i, σ⟩ ⟨lo + f.args.length⟩ vs) := by
  obtain ⟨b, hb, hargs⟩ := hf.start
  have hstart := block?_looped (hlo f.start (Function.block?_label hb ▸ List.mem_map_of_mem (Function.block?_mem hb))) hb
  rw [Function.activate, Frame.enter, block?_loop, Option.bind_some]
  by_cases hlen : f.args.length = vs.length
  · rw [if_pos hlen, if_pos hlen]
    refine ⟨_, ⟨looped f lo, f.start, 0, σ.sets (f.args.map Prod.fst) vs⟩, rfl, .single ?_, hR, rfl, rfl, fun {x} hx => ?_⟩
    · refine Frame.quiet_of_goes ⟨_, block?_loop, rfl, rfl⟩ rfl ?_
      change (Env.all (σ.sets (f.args.map Prod.fst) vs) []).bind
        (Frame.enter ⟨looped f lo, ⟨lo + f.args.length⟩, 0, σ.sets (f.args.map Prod.fst) vs⟩ f.start) = _
      rw [Env.all_nil, Option.bind_some, Frame.enter, hstart, Option.bind_some, hargs]
      rfl
    · refine Env.sets_congr (by simpa using hlen) fun hmem => hσ x ?_ hmem
      exact (hx.entry.resolve_left hf.not_binds_entry).1.resolve_right hmem
  · rw [if_neg hlen, if_neg hlen]
    rfl

/-- **The pass redirects transfers.** -/
theorem redirects (hscoped : p.Scoped globals) (hnamed : p.Named globals n) :
    Redirects W p ((transform p).run n).1 G globals fun f f' => ∃ lo hi, n ≤ lo ∧ Made lo hi f f' := by
  obtain ⟨fs, hi, hdrawn, hp'⟩ := drawn_transform p n
  have hbelow : ∀ f ∈ p.functions, ∀ {lo}, n ≤ lo → ∀ l ∈ f.blocks.map Block.label, l.id < lo :=
    fun f hf lo hlo l hl => (hnamed.labels f hf l hl).trans_le hlo
  have hlabel : ∀ {f : Function} {l b}, f.block? l = some b → l ∈ f.blocks.map Block.label := fun hb =>
    Function.block?_label hb ▸ List.mem_map_of_mem (Function.block?_mem hb)
  have hfunctions := hscoped.rel_function? hdrawn Made.name (congrArg Program.functions hp')
  have hcounter : Counterparts W p ((transform p).run n).1 G globals fun f f' => ∃ lo hi, n ≤ lo ∧ Made lo hi f f' :=
    { main := by rw [hp']
      functions := hfunctions p.main
      activate := by
        rintro f f' hf ⟨lo, hi, hlo, ⟨hnone, rfl⟩ | ⟨rfl, hhi⟩⟩ vs
        · exact .of_rel (Frame.Alike.activate ⟨lo, hi, hlo, .inl ⟨hnone, rfl⟩⟩ rfl rfl vs)
        · -- the new start passes the new arguments on
          have hlands := lands_loop (W := W) (G := G) (q := ((transform p).run n).1)
            (R := fun f f' => ∃ lo hi, n ≤ lo ∧ Made lo hi f f') (hscoped.functions f hf) ⟨lo, hi, hlo, .inr ⟨rfl, hhi⟩⟩
            (hbelow f hf hlo) (l := ⟨lo + f.args.length + 1⟩) (i := 0)
            (σ := G.sets ((freshArgs f.args lo).map Prod.fst) vs) (fun x hx _ => Env.sets_of_notMem fun hmem => by
              have := (mem_freshArgs hmem).1
              have := hnamed.globals x hx
              omega) vs
          have hlen := length_freshArgs f.args lo
          by_cases hvs : f.args.length = vs.length
          · have hfr : f.activate G vs = some ⟨f, f.start, 0, G.sets (f.args.map Prod.fst) vs⟩ := if_pos hvs
            rw [hfr] at hlands ⊢
            obtain ⟨fr₁, fr', henter, hquiet, hF⟩ := hlands
            refine ⟨⟨looped f lo, ⟨lo + f.args.length + 1⟩, 0, G.sets ((freshArgs f.args lo).map Prod.fst) vs⟩, fr',
              if_pos (hlen.trans hvs), .head (Frame.quiet_of_goes ⟨_, block?_loopS, rfl, rfl⟩ rfl ?_) hquiet, hF⟩
            change (Env.all _ ((freshArgs f.args lo).map Prod.fst)).bind (Frame.enter _ _) = some fr₁
            rw [Env.all_sets (nodup_freshArgs _ _) (by rw [List.length_map, hlen, hvs]), Option.bind_some]
            exact henter
          · have hnone : f.activate G vs = none := if_neg hvs
            rw [hnone]
            exact if_neg fun h => hvs (hlen.symm.trans h)
      block := by
        rintro f f' l i b hf ⟨lo, hi, hlo, ⟨-, rfl⟩ | ⟨rfl, -⟩⟩ - hb
        · exact ⟨b, hb, rfl, rfl⟩
        · exact ⟨_, block?_looped (hbelow f hf hlo l (hlabel hb)) hb, rfl, rfl⟩ }
  refine ⟨hcounter, fun {fr fr' tr} hF hglobal hat => ?_⟩
  have hfr := hglobal.toDefined
  -- what stays does the same
  have htakes := hcounter.takes hscoped hF.func hF.env hfr hat fun _ func _ _ => hfunctions func
  obtain ⟨b, hb, hnone, htr⟩ := id hat
  obtain ⟨lo, hi, hlo, ⟨-, hfunc⟩ | ⟨hfunc, hhi⟩⟩ := id hF.func
  · exact ⟨fr', tr, .refl, ⟨b, by rw [hfunc, hF.label]; exact hb, by rw [hF.index]; exact hnone, htr⟩, htakes⟩
  · have hblock := block?_looped (hbelow _ hfr.func hlo _ (hlabel hb)) hb
    have hat' : fr'.At (loopTransfer fr.func.name ⟨lo + fr.func.args.length⟩ tr) :=
      ⟨_, by rw [hfunc, hF.label]; exact hblock, by rw [hF.index]; exact hnone, by rw [← htr]⟩
    cases tr with
    | call args func k =>
      by_cases hself : fr.func.name = func ∧ Return.isTail k = true
      · -- a tail call of the function itself
        rw [loopTransfer, if_pos hself] at hat'
        obtain ⟨rfl, htail⟩ := hself
        obtain rfl : k = .tail := by
          cases k with
          | tail => rfl
          | dead | nonTail => cases htail
        refine ⟨fr', _, .refl, hat', .quiet rfl rfl ?_⟩
        change Lands _ _ _ _ (fr.calls p G args fr.func.name) ((fr'.env.all args).bind (fr'.enter _))
        have hargs : fr'.env.all args = fr.env.all args := Env.all_congr (hfr.env_transfer hscoped hat hF.env)
        rw [hargs, Frame.calls]
        cases fr.env.all args with
        | none => rfl
        | some vs =>
          have hname : p.function? fr.func.name = some fr.func := Fold.find?_key hscoped.names _ hfr.func
          rw [Option.bind_some, Option.bind_some, Program.activation, hname, Option.bind_some]
          have hlands := lands_loop (W := W) (G := G) (q := ((transform p).run n).1)
            (R := fun f f' => ∃ lo hi, n ≤ lo ∧ Made lo hi f f') (hscoped.functions _ hfr.func)
            ⟨lo, hi, hlo, .inr ⟨rfl, hhi⟩⟩ (hbelow _ hfr.func hlo) (l := fr'.label) (i := fr'.index) (σ := fr'.env)
            (fun x hx _ => (hF.env (Function.Given.inScope (.inl hx))).trans (hglobal.globals x hx)) vs
          rw [← hfunc] at hlands
          exact hlands
      · rw [loopTransfer, if_neg hself] at hat'
        exact ⟨fr', _, .refl, hat', htakes⟩
    | bug | case | goto | raise | ret | runtime => exact ⟨fr', _, .refl, hat', htakes⟩

/-- **The pass keeps the runs of the program.** -/
theorem introduceLoops_sameRuns (hscoped : p.Scoped globals) (hnamed : p.Named globals n)
    (hG : ∀ x ∈ globals, ∃ v, G x = some v) : p.SameRuns W G ((transform p).run n).1 :=
  (redirects hscoped hnamed).sameRuns hscoped hG

/-- The call becomes a goto. -/
theorem introduceLoops_sameRuns_sample :
    ((transform sample).run 5).1.functions.map (fun f => (f.start, f.blocks.map fun b => (b.label.id, b.transfer.labels))) =
      [(⟨6⟩, [(6, [⟨5⟩]), (5, [⟨0⟩]), (0, [⟨1⟩, ⟨2⟩, ⟨3⟩]), (1, [⟨2⟩]), (2, [⟨5⟩]), (3, []), (4, [])])] ∧
    sample.SameRuns .idle sampleEnv ((transform sample).run 5).1 :=
  ⟨by decide, introduceLoops_sameRuns scoped_sample named_sample bound_sample⟩

end Programs

end IntroduceLoops

end MLton.Ssa
