import MLton.Ssa.DirectExpEval
import Mathlib.Data.List.Nodup

/-!
# Ssa/DirectExpCode — code under construction, and what continuations ask of it

The code of an expression is made before it is known where the value will come from, and names are drawn
in the order the code is made, which is not the order it runs in.  Two things are carried along:

* `Makes` — what a code generator makes: it always comes to an end, and it adds blocks under labels of
  its own only.
* `Goal.Accepts`, `Goal.Handles` — what a continuation, or a handler, asks of the value it is given: a
  condition on the value, the trace and an environment that the code in between must leave alone.
-/

namespace MLton.Ssa.DirectExp

open MLton.Effects

/-! ## Making code -/

/-- The second state is reached by making code from the first: the new blocks have new labels. -/
def State.Extends (s s' : State) : Prop :=
  s.supply ≤ s'.supply ∧ ∃ new, s'.blocks = new ++ s.blocks ∧ (new.map Block.label).Nodup ∧
    ∀ b ∈ new, s.supply ≤ b.label.id ∧ b.label.id < s'.supply

theorem State.Extends.refl (s : State) : s.Extends s :=
  ⟨Nat.le_refl _, [], rfl, List.nodup_nil, by simp⟩

theorem State.Extends.trans {s s' s'' : State} (h : s.Extends s') (h' : s'.Extends s'') :
    s.Extends s'' := by
  obtain ⟨hle, new, hnew, hnodup, hrange⟩ := h
  obtain ⟨hle', new', hnew', hnodup', hrange'⟩ := h'
  refine ⟨Nat.le_trans hle hle', new' ++ new, by rw [hnew', hnew, List.append_assoc], ?_, ?_⟩
  · rw [List.map_append, List.nodup_append]
    refine ⟨hnodup', hnodup, ?_⟩
    simp only [List.mem_map, forall_exists_index, and_imp, forall_apply_eq_imp_iff₂]
    intro b' hb' b hb heq
    have := (hrange' b' hb').1
    rw [heq] at this
    exact absurd (hrange b hb).2 (Nat.not_lt.mpr this)
  · intro b hb
    obtain hb | hb := List.mem_append.mp hb
    · exact ⟨Nat.le_trans hle (hrange' b hb).1, (hrange' b hb).2⟩
    · exact ⟨(hrange b hb).1, Nat.lt_of_lt_of_le (hrange b hb).2 hle'⟩

/-- Drawing a name makes no code. -/
theorem State.extends_succ (s : State) : s.Extends { s with supply := s.supply + 1 } :=
  ⟨Nat.le_succ _, [], rfl, List.nodup_nil, by simp⟩

/-- **What a code generator makes**: it has a result, which satisfies `Q`. -/
def Makes {α : Type} (m : Gen α) (s : State) (Q : α → State → Prop) : Prop :=
  ∃ a s', m s = some (a, s') ∧ s.Extends s' ∧ Q a s'

section Makes

variable {α β : Type} {m : Gen α} {f : α → Gen β} {s : State} {Q : α → State → Prop}
  {R : β → State → Prop}

theorem Makes.mono {Q' : α → State → Prop} (h : Makes m s Q)
    (hQ : ∀ a s', s.Extends s' → Q a s' → Q' a s') : Makes m s Q' := by
  obtain ⟨a, s', hm, hs, ha⟩ := h
  exact ⟨a, s', hm, hs, hQ a s' hs ha⟩

theorem makes_pure {a : α} (h : Q a s) : Makes (pure a) s Q := ⟨a, s, rfl, .refl s, h⟩

theorem Makes.bind (h : Makes m s Q) (hf : ∀ a s', s.Extends s' → Q a s' → Makes (f a) s' R) :
    Makes (m >>= f) s R := by
  obtain ⟨a, s', hm, hs, ha⟩ := h
  obtain ⟨b, s'', hf, hs', hb⟩ := hf a s' hs ha
  refine ⟨b, s'', ?_, hs.trans hs', hb⟩
  change (m s).bind (fun p => f p.1 p.2) = _
  rw [hm]
  exact hf

theorem makes_newVar_bind {f : Var → Gen β}
    (h : Makes (f ⟨s.supply⟩) { s with supply := s.supply + 1 } R) : Makes (newVar >>= f) s R :=
  Makes.bind (Q := fun x s' => x = ⟨s.supply⟩ ∧ s' = { s with supply := s.supply + 1 })
    ⟨_, _, rfl, s.extends_succ, rfl, rfl⟩
    (by rintro _ _ - ⟨rfl, rfl⟩; exact h)

/-- A block whose label is drawn before its code is made. -/
theorem makes_block {args : List (Var × Ty)} {m : Label → Gen Res} {f : Label → Gen β}
    {Q : Res → State → Prop} (h : Makes (m ⟨s.supply⟩) { s with supply := s.supply + 1 } Q)
    (hf : ∀ r s', State.Extends { s with supply := s.supply + 1 } s' → Q r s' →
      s.Extends { s' with blocks := ⟨args, ⟨s.supply⟩, r.statements, r.transfer⟩ :: s'.blocks } →
      Makes (f ⟨s.supply⟩)
        { s' with blocks := ⟨args, ⟨s.supply⟩, r.statements, r.transfer⟩ :: s'.blocks } R) :
    Makes (do
      let l ← newName
      let r ← m l
      push { label := l, args, statements := r.statements, transfer := r.transfer }
      f l) s R := by
  obtain ⟨r, s', hm, hs, hr⟩ := h
  obtain ⟨hle, new, hnew, hnodup, hrange⟩ := hs
  have hext : s.Extends
      { s' with blocks := ⟨args, ⟨s.supply⟩, r.statements, r.transfer⟩ :: s'.blocks } := by
    refine ⟨Nat.le_of_succ_le hle, ⟨args, ⟨s.supply⟩, r.statements, r.transfer⟩ :: new,
      by simp [hnew], ?_, ?_⟩
    · simp only [List.map_cons, List.nodup_cons, hnodup, and_true, List.mem_map, not_exists, not_and]
      intro b hb heq
      have := (hrange b hb).1
      rw [heq] at this
      exact Nat.not_succ_le_self _ this
    · simp only [List.mem_cons, forall_eq_or_imp]
      exact ⟨⟨Nat.le_refl _, hle⟩, fun b hb =>
        ⟨Nat.le_of_succ_le (hrange b hb).1, (hrange b hb).2⟩⟩
  obtain ⟨b, s'', hf, hs', hb⟩ := hf r s' ⟨hle, new, hnew, hnodup, hrange⟩ hr hext
  refine ⟨b, s'', ?_, hext.trans hs', hb⟩
  change (m ⟨s.supply⟩ { s with supply := s.supply + 1 }).bind _ = _
  rw [hm]
  exact hf

theorem makes_newBlock {args : List (Var × Ty)} {r : Res} {Q : Label → State → Prop}
    (h : Q ⟨s.supply⟩
      ⟨s.supply + 1, ⟨args, ⟨s.supply⟩, r.statements, r.transfer⟩ :: s.blocks⟩) :
    Makes (newBlock args r) s Q :=
  makes_block (m := fun _ => pure r) (f := fun l => pure l)
    (makes_pure (Q := fun r' s' => r' = r ∧ s' = { s with supply := s.supply + 1 }) ⟨rfl, rfl⟩)
    (by rintro _ _ - ⟨rfl, rfl⟩ -; exact makes_pure h)

end Makes

/-! ## Reaching a goal -/

/-- A run of the code should end as `post` says. -/
structure Goal where
  world : World
  block? : Label → Option Block
  post : Result Val Val → Trace → Prop

namespace Goal

variable {G : Goal}

/-- Running the code reaches the goal. -/
def Leads (G : Goal) (ρ : Env) (t : Trace) (r : Res) : Prop :=
  ∃ o t', Runs G.world G.block? ρ t r.statements r.transfer o t' ∧ G.post o t'

/-- Entering a block reaches the goal. -/
def Enters (G : Goal) (ρ : Env) (t : Trace) (l : Label) (vs : List Val) : Prop :=
  ∃ b, G.block? l = some b ∧ b.args.length = vs.length ∧
    G.Leads (ρ.sets (b.args.map Prod.fst) vs) t ⟨b.statements, b.transfer⟩

/-- What comes after a transfer reaches the goal. -/
def Goes (G : Goal) (ρ : Env) : Next → Trace → Prop
  | .jump l vs, t => G.Enters ρ t l vs
  | .stop r, t => G.post r t

/-- The condition on outcomes that asks `K` of values and `H` of exceptions, and otherwise the goal. -/
def Good {α : Type} (G : Goal) (K : α → Trace → Prop) (H : Val → Trace → Prop) :
    Result Val α → Trace → Prop
  | .value v, t => K v t
  | .raised v, t => H v t
  | .bug, t => G.post .bug t
  | .gone, t => G.post .gone t
  | .wrong, _ => False

theorem andThen_good {α β : Type} {f : α → Effect Event Val β} {K : β → Trace → Prop}
    {H : Val → Trace → Prop} :
    Effect.andThen f (G.Good K H) = G.Good (fun v t => (f v).Sure t (G.Good K H)) H := by
  funext r t
  cases r <;> rfl

theorem Good.mono {α : Type} {K K' : α → Trace → Prop} {H H' : Val → Trace → Prop}
    {r : Result Val α} {t : Trace} (h : G.Good K H r t) (hK : ∀ v t, K v t → K' v t)
    (hH : ∀ v t, H v t → H' v t) : G.Good K' H' r t := by
  cases r with
  | value v => exact hK v t h
  | raised v => exact hH v t h
  | bug | gone | wrong => exact h

theorem sure_bind_good {α β : Type} {m : Effect Event Val α} {f : α → Effect Event Val β}
    {K : β → Trace → Prop} {H : Val → Trace → Prop} {t : Trace} :
    (m.bind f).Sure t (G.Good K H) ↔
      m.Sure t (G.Good (fun v t => (f v).Sure t (G.Good K H)) H) := by
  rw [Effect.sure_bind, andThen_good]

theorem sure_ofOption {α : Type} {o : Option α} {K : α → Trace → Prop} {H : Val → Trace → Prop}
    {t : Trace} : (ofOption o).Sure t (G.Good K H) ↔ ∃ v, o = some v ∧ K v t := by
  cases o <;> simp [ofOption, Good]

theorem leads_transfer {ρ : Env} {t : Trace} {tr : Transfer}
    (h : G.Goes ρ (tr.eval G.world ρ t).1 (tr.eval G.world ρ t).2) : G.Leads ρ t ⟨[], tr⟩ := by
  cases hn : (tr.eval G.world ρ t).1 with
  | jump l vs =>
    rw [hn] at h
    obtain ⟨b, hb, hlength, o, t', hruns, hpost⟩ := h
    exact ⟨o, t', .jump (Prod.ext hn rfl) hb hlength hruns, hpost⟩
  | stop r =>
    rw [hn] at h
    exact ⟨r, _, .stop (Prod.ext hn rfl), h⟩

/-- A statement in front of code that reaches the goal. -/
theorem leads_statement {ρ : Env} {t : Trace} {x : Var} {ty : Ty} {e : Exp} {r : Res}
    (h : G.Good (fun v t' => G.Leads (ρ.set x v) t' r) (fun _ _ => False)
      (e.eval G.world ρ t).1 (e.eval G.world ρ t).2) :
    G.Leads ρ t (r.prefixWith { var := some x, ty, exp := e }) := by
  cases he : (e.eval G.world ρ t).1 with
  | value v =>
    rw [he] at h
    obtain ⟨o, t', hruns, hpost⟩ := h
    exact ⟨o, t', .statement (Prod.ext he rfl) hruns, hpost⟩
  | bug | gone =>
    rw [he] at h
    exact ⟨_, _, .halt (Prod.ext he rfl) (by simp), h⟩
  | raised v | wrong =>
    rw [he] at h
    exact h.elim

theorem leads_goto {ρ : Env} {t : Trace} {l : Label} {xs : List Var} {vs : List Val}
    (hvs : ρ.all xs = some vs) (h : G.Enters ρ t l vs) : G.Leads ρ t ⟨[], .goto l xs⟩ :=
  leads_transfer (by simpa [Transfer.eval, hvs, Goes] using h)

/-! ## What continuations and handlers ask -/

/-- The blocks made are there to be entered. -/
def Held (G : Goal) (s : State) : Prop := ∀ b ∈ s.blocks, G.block? b.label = some b

theorem Held.of_extends {s s' : State} (h : G.Held s') (hs : s.Extends s') : G.Held s := by
  obtain ⟨-, new, hnew, -⟩ := hs
  exact fun b hb => h b (hnew ▸ List.mem_append_right new hb)

theorem Held.of_cons {s : State} {b : Block} (h : G.Held { s with blocks := b :: s.blocks }) :
    G.block? b.label = some b ∧ G.Held s :=
  ⟨h b (List.mem_cons_self ..), fun b' hb' => h b' (List.mem_cons_of_mem _ hb')⟩

/-- Code that still has to be made, with names from `n` on and the binders `B`, binds nothing that is
bound in `M`. -/
def Clear (M : Env) (n : Supply) (B : Set Var) : Prop := ∀ x v, M x = some v → x.id < n ∧ x ∉ B

theorem Clear.mono {M : Env} {n n' : Supply} {B B' : Set Var} (h : Clear M n B) (hn : n ≤ n')
    (hB : B' ⊆ B) : Clear M n' B' :=
  fun x v hx => ⟨Nat.lt_of_lt_of_le (h x v hx).1 hn, fun hxB => (h x v hx).2 (hB hxB)⟩

theorem Clear.sets {M : Env} {n : Supply} {B : Set Var} {xs : List Var} {vs : List Val}
    (h : Clear M n B) (hxs : ∀ x ∈ xs, x.id < n ∧ x ∉ B) : Clear (M.sets xs vs) n B := by
  intro x v hx
  obtain hx | hx := Env.sets_eq_some hx
  · exact h x v hx
  · exact hxs x hx

theorem Clear.set {M : Env} {n : Supply} {B : Set Var} {x : Var} {v : Val} (h : Clear M n B)
    (hx : x.id < n) (hxB : x ∉ B) : Clear (M.set x v) n B :=
  show Clear (M.sets [x] [v]) n B from h.sets fun _ hy => List.mem_singleton.mp hy ▸ ⟨hx, hxB⟩

/-- Binding what is not clear loses nothing. -/
theorem Clear.sub_sets {M ρ : Env} {n : Supply} {B : Set Var} {xs : List Var} {vs : List Val}
    (h : Clear M n B) (hxs : ∀ x ∈ xs, n ≤ x.id ∨ x ∈ B) (hM : M.Sub ρ) :
    M.Sub (ρ.sets xs vs) := by
  induction xs generalizing ρ vs with
  | nil => exact hM
  | cons x xs ih =>
    cases vs with
    | nil => exact hM
    | cons v vs =>
      refine ih (fun y hy => hxs y (List.mem_cons_of_mem _ hy)) (hM.set_right ?_)
      cases hx : M x with
      | none => rfl
      | some w =>
        obtain hn | hB := hxs x (List.mem_cons_self ..)
        · exact absurd (h x w hx).1 (Nat.not_lt.mpr hn)
        · exact absurd hB (h x w hx).2

/-- Binding a fresh name loses nothing. -/
theorem Clear.sub_set {M ρ : Env} {n : Supply} {B : Set Var} {x : Var} {v : Val}
    (h : Clear M n B) (hx : n ≤ x.id) (hM : M.Sub ρ) : M.Sub (ρ.set x v) :=
  show M.Sub (ρ.sets [x] [v]) from
    h.sub_sets (fun _ hy => Or.inl (List.mem_singleton.mp hy ▸ hx)) hM

/-- **What a continuation asks**: the code it makes when it is sent a value reaches the goal if `K` holds
of the value.  `B` is what code made later may bind, so that a name sent should not be in it. -/
structure Accepts (G : Goal) (k : Cont) (s₀ : State) (B : Set Var) (T : Set Ty)
    (K : Env → Val → Trace → Prop) : Prop where
  below : ∀ x ∈ B, x.id < s₀.supply
  up : ∀ {M M' : Env} {v t}, M.Sub M' → K M v t → K M' v t
  ground : ∀ {M : Env} {v t}, K M v t →
    ∃ M₀ : Env, M₀.Sub M ∧ Clear M₀ s₀.supply ∅ ∧ K M₀ v t
  var : ∀ s ty x, s₀.Extends s → ty ∈ T → Makes (k.sendVar ty x) s fun r s' => G.Held s' →
    ∀ (M ρ : Env) t v, M.Sub ρ → x.id < s.supply → x ∉ B → ρ x = some v → K M v t → G.Leads ρ t r
  bind : ∀ s ty, s₀.Extends s → ty ∈ T → Makes (k.toBind ty) s fun b s' => G.Held s' →
    ∀ (M ρ : Env) t v, M.Sub ρ → K M v t → G.Leads (ρ.set b.arg v) t ⟨b.statements, b.transfer⟩
  exp : ∀ s ty e, s₀.Extends s → ty ∈ T → (∀ xs m, e = .tuple xs m → ty.deTupleOpt.isSome) →
    Makes (k.sendExp ty e) s fun r s' => G.Held s' → ∀ (M ρ : Env) t, M.Sub ρ →
      (∀ x ∈ e.vars, x.id < s.supply ∧ x ∉ B) →
      G.Good (K M) (fun _ _ => False) (e.eval G.world ρ t).1 (e.eval G.world ρ t).2 → G.Leads ρ t r

/-- **What a handler asks** of the values raised to it. -/
structure Handles (G : Goal) (h : Handler) (s₀ : State) (H : Env → Val → Trace → Prop) : Prop where
  live : h ≠ .dead
  up : ∀ {M M' : Env} {v t}, M.Sub M' → H M v t → H M' v t
  goes : G.Held s₀ → ∀ (M ρ : Env) t v, M.Sub ρ → H M v t → G.Goes ρ (Handler.next v h) t

variable {k : Cont} {s₀ s₁ s : State} {B : Set Var} {T : Set Ty} {K : Env → Val → Trace → Prop}
  {h : Handler} {H : Env → Val → Trace → Prop}

theorem Accepts.of_extends (hk : G.Accepts k s₀ B T K) (hs : s₀.Extends s₁) :
    G.Accepts k s₁ B T K where
  below x hx := Nat.lt_of_lt_of_le (hk.below x hx) hs.1
  up := hk.up
  ground hK :=
    have ⟨M₀, hsub, hclear, hK⟩ := hk.ground hK
    ⟨M₀, hsub, hclear.mono hs.1 (fun _ h => h), hK⟩
  var s ty x h := hk.var s ty x (hs.trans h)
  bind s ty h := hk.bind s ty (hs.trans h)
  exp s ty e h := hk.exp s ty e (hs.trans h)

theorem Handles.of_extends (hh : G.Handles h s₀ H) (hs : s₀.Extends s₁) : G.Handles h s₁ H where
  live := hh.live
  up := hh.up
  goes hheld := hh.goes (hheld.of_extends hs)

/-- Outside of the world, right-hand sides raise nothing and report no bug. -/
theorem sendBindExp_leads {b : Bind} {ty : Ty} {e : Exp} {ρ : Env} {t : Trace}
    {K : Val → Trace → Prop}
    (hb : ∀ t v, K v t → G.Leads (ρ.set b.arg v) t ⟨b.statements, b.transfer⟩)
    (he : G.Good K (fun _ _ => False) (e.eval G.world ρ t).1 (e.eval G.world ρ t).2) :
    G.Leads ρ t (Cont.sendBindExp b ty e) :=
  leads_statement (r := ⟨b.statements, b.transfer⟩)
    (he.mono (fun v t hv => hb t v hv) fun _ _ hf => hf)

/-! ## Kinds of continuations -/

/-- A continuation that makes code for a name, and to that end names what it is sent. -/
theorem Accepts.ofVar (hbelow : ∀ x ∈ B, x.id < s₀.supply)
    (hup : ∀ {M M' : Env} {v t}, M.Sub M' → K M v t → K M' v t)
    (hground : ∀ {M : Env} {v t}, K M v t →
      ∃ M₀ : Env, M₀.Sub M ∧ Clear M₀ s₀.supply ∅ ∧ K M₀ v t)
    (hbind : ∀ ty, k.toBind ty = newVar >>= fun arg => k.sendVar ty arg >>= fun r =>
      pure ⟨arg, r.statements, r.transfer⟩)
    (hexp : ∀ ty e, k.sendExp ty e = k.toBind ty >>= fun b => pure (Cont.sendBindExp b ty e))
    (hvar : ∀ s ty x, s₀.Extends s → ty ∈ T → Makes (k.sendVar ty x) s fun r s' => G.Held s' →
      ∀ (M ρ : Env) t v, M.Sub ρ → x.id < s.supply → x ∉ B → ρ x = some v → K M v t →
        G.Leads ρ t r) : G.Accepts k s₀ B T K := by
  have hmakes : ∀ s ty, s₀.Extends s → ty ∈ T → Makes (k.toBind ty) s fun b s' => G.Held s' →
      ∀ (M ρ : Env) t v, M.Sub ρ → K M v t →
        G.Leads (ρ.set b.arg v) t ⟨b.statements, b.transfer⟩ := by
    intro s ty hs hty
    rw [hbind]
    refine makes_newVar_bind ((hvar _ ty ⟨s.supply⟩ (hs.trans s.extends_succ) hty).bind
      fun r s' _ hr => makes_pure fun hheld M ρ t v hM hK => ?_)
    obtain ⟨M₀, hsub, hclear, hK⟩ := hground hK
    refine hr hheld M₀ (ρ.set ⟨s.supply⟩ v) t v ?_ (Nat.lt_succ_self _) ?_ Env.set_self hK
    · exact hclear.sub_set hs.1 (hsub.trans hM)
    · exact fun hxB => absurd (hbelow _ hxB) (Nat.not_lt.mpr hs.1)
  refine ⟨hbelow, hup, hground, hvar, hmakes, fun s ty e hs hty _ => ?_⟩
  rw [hexp]
  exact (hmakes s ty hs hty).bind fun b s' _ hb => makes_pure fun hheld M ρ t hM _ he =>
    sendBindExp_leads (fun t' v hv => hb hheld M ρ t' v hM hv) he

/-- A continuation that makes code for a right-hand side. -/
theorem Accepts.receiveExp {f : Exp → Ty → Gen Res} (hbelow : ∀ x ∈ B, x.id < s₀.supply)
    (hup : ∀ {M M' : Env} {v t}, M.Sub M' → K M v t → K M' v t)
    (hground : ∀ {M : Env} {v t}, K M v t →
      ∃ M₀ : Env, M₀.Sub M ∧ Clear M₀ s₀.supply ∅ ∧ K M₀ v t)
    (hf : ∀ s ty e, s₀.Extends s → ty ∈ T → (∀ xs m, e = .tuple xs m → ty.deTupleOpt.isSome) →
      Makes (f e ty) s fun r s' => G.Held s' → ∀ (M ρ : Env) t, M.Sub ρ →
        (∀ x ∈ e.vars, x.id < s.supply ∧ x ∉ B) →
        G.Good (K M) (fun _ _ => False) (e.eval G.world ρ t).1 (e.eval G.world ρ t).2 →
          G.Leads ρ t r) : G.Accepts (.receiveExp f) s₀ B T K := by
  have hvar : ∀ s ty x, s₀.Extends s → ty ∈ T → Makes (f (.var x) ty) s fun r s' => G.Held s' →
      ∀ (M ρ : Env) t v, M.Sub ρ → x.id < s.supply → x ∉ B → ρ x = some v → K M v t →
        G.Leads ρ t r := by
    refine fun s ty x hs hty => (hf s ty (.var x) hs hty (by simp)).mono
      fun r s' _ hr hheld M ρ t v hM hx hxB hv hK => hr hheld M ρ t hM ?_ ?_
    · simpa [Exp.vars] using ⟨hx, hxB⟩
    · simpa [Exp.eval, hv, Good] using hK
  have hof : G.Accepts (.receiveVar fun x ty => f (.var x) ty) s₀ B T K :=
    .ofVar hbelow hup hground (fun _ => rfl) (fun _ _ => rfl) hvar
  exact ⟨hbelow, hup, hground, hvar, hof.bind, hf⟩

/-- A continuation whose code is already made. -/
theorem Accepts.bind_of {b : Bind} (hup : ∀ {M M' : Env} {v t}, M.Sub M' → K M v t → K M' v t)
    (hground : ∀ {M : Env} {v t}, K M v t →
      ∃ M₀ : Env, M₀.Sub M ∧ Clear M₀ s₀.supply ∅ ∧ K M₀ v t)
    (hb : G.Held s₀ → ∀ (M ρ : Env) t v, M.Sub ρ → K M v t →
      G.Leads (ρ.set b.arg v) t ⟨b.statements, b.transfer⟩) :
    G.Accepts (.bind b) s₀ ∅ T K where
  below := by simp
  up := hup
  ground := hground
  var s ty x hs _ := makes_pure fun hheld M ρ t v hM _ _ hv hK =>
    sendBindExp_leads (fun t' v' hv' => hb (hheld.of_extends hs) M ρ t' v' hM hv')
      (by simpa [Exp.eval, hv, Good] using hK)
  bind s ty hs _ := makes_pure fun hheld M ρ t v hM hK => hb (hheld.of_extends hs) M ρ t v hM hK
  exp s ty e hs _ _ := makes_pure fun hheld M ρ t hM _ he =>
    sendBindExp_leads (fun t' v' hv' => hb (hheld.of_extends hs) M ρ t' v' hM hv') he

/-- The block that a continuation has been made into. -/
def Reified (G : Goal) (l : Label) (s : State) (K : Env → Val → Trace → Prop) : Prop :=
  G.Held s → ∀ (M ρ : Env) t v, M.Sub ρ → K M v t → G.Enters ρ t l [v]

theorem Reified.of_extends {l : Label} (hl : G.Reified l s₀ K) (hs : s₀.Extends s₁) :
    G.Reified l s₁ K :=
  fun hheld => hl (hheld.of_extends hs)

theorem makes_reify {ty : Ty} (hk : G.Accepts k s₀ B T K) (hty : ty ∈ T) :
    Makes (reify k ty) s₀ fun l s' => G.Reified l s' K := by
  have heq : reify k ty = k.toBind ty >>= fun b =>
      newBlock [(b.arg, ty)] ⟨b.statements, b.transfer⟩ := by
    simp [reify, Cont.toBlock, newBlock]
  rw [heq]
  refine (hk.bind s₀ ty (.refl _) hty).bind fun b s' hs hb => makes_newBlock ?_
  intro hheld M ρ t v hM hK
  exact ⟨_, hheld.of_cons.1, rfl, hb (Held.of_cons (s := s') hheld).2 M ρ t v hM hK⟩

theorem Accepts.goto {l : Label} (hk : G.Accepts k s₀ B T K) (hs : s₀.Extends s₁)
    (hl : G.Reified l s₁ K) : G.Accepts (.goto l) s₁ ∅ Set.univ K :=
  .ofVar (by simp) hk.up (hk.of_extends hs).ground (fun _ => rfl) (fun _ _ => rfl)
    fun s ty x hs _ => makes_pure fun hheld M ρ t v hM _ _ hv hK =>
      leads_goto (Env.all_singleton.mpr hv) (hl (hheld.of_extends hs) M ρ t v hM hK)

/-- What code made from a state asks, `J`, as a condition that survives what is bound in between. -/
def Kept {α : Type} (n : Supply) (B : Set Var) (J : Env → Env → α → Trace → Prop) :
    Env → α → Trace → Prop :=
  fun M v t => ∃ N M₀ : Env, N.Sub M₀ ∧ M₀.Sub M ∧ Clear M₀ n B ∧ J N M₀ v t

section Kept

variable {α : Type} {n : Supply} {J : Env → Env → α → Trace → Prop}

theorem Kept.up {M M' : Env} {v : α} {t : Trace} (hM : M.Sub M') (hK : Kept n B J M v t) :
    Kept n B J M' v t := by
  obtain ⟨N, M₀, hN, hM₀, hclear, hJ⟩ := hK
  exact ⟨N, M₀, hN, hM₀.trans hM, hclear, hJ⟩

theorem Kept.ground {n' : Supply} (hn : n ≤ n') {M : Env} {v : α} {t : Trace}
    (hK : Kept n B J M v t) : ∃ M₀ : Env, M₀.Sub M ∧ Clear M₀ n' ∅ ∧ Kept n B J M₀ v t := by
  obtain ⟨N, M₀, hN, hM₀, hclear, hJ⟩ := hK
  exact ⟨M₀, hM₀, hclear.mono hn (Set.empty_subset _), N, M₀, hN, .refl _, hclear, hJ⟩

end Kept

/-- **Code for a computation**: if the computation is sure to satisfy what continuation and handler ask,
running the code reaches the goal.  `N` is the lexical environment; `M` also has the names that code
further out has been given. -/
def Code {α : Type} (G : Goal) (m : Env → Effect Event Val α) (n : Supply) (C : Set Var)
    (K : Env → α → Trace → Prop) (H : Env → Val → Trace → Prop) (r : Res) : Prop :=
  ∀ (N M ρ : Env) t, N.Sub M → M.Sub ρ → Clear M n C → (m N).Sure t (G.Good (K M) (H M)) →
    G.Leads ρ t r

theorem Code.mono {α : Type} {m : Env → Effect Event Val α} {n n' : Supply} {C C' : Set Var}
    {K : Env → α → Trace → Prop} {r : Res} (hr : G.Code m n C K H r) (hn : n' ≤ n) (hC : C ⊆ C') :
    G.Code m n' C' K H r :=
  fun N M ρ t hN hM hclear => hr N M ρ t hN hM (hclear.mono hn hC)

/-- What is asked of the values of `m` when they go on to `f`. -/
def Rest {α β : Type} (G : Goal) (f : Env → α → Effect Event Val β)
    (K : Env → β → Trace → Prop) (H : Env → Val → Trace → Prop) : Env → Env → α → Trace → Prop :=
  fun N M v t => (f N v).Sure t (G.Good (K M) (H M))

theorem code_bind {α β : Type} {m : Env → Effect Event Val α} {f : Env → α → Effect Event Val β}
    {n : Supply} {C C' D : Set Var} {K : Env → β → Trace → Prop} {r : Res}
    (hr : G.Code m n C (Kept n D (G.Rest f K H)) H r) (hC : C ⊆ C') (hD : D ⊆ C') :
    G.Code (fun N => (m N).bind (f N)) n C' K H r := by
  intro N M ρ t hN hM hclear hsure
  refine hr N M ρ t hN hM (hclear.mono (Nat.le_refl _) hC) ?_
  exact (sure_bind_good.mp hsure).mono fun o t' ho => ho.mono
    (fun v t'' hv => ⟨N, M, hN, .refl _, hclear.mono (Nat.le_refl _) hD, hv⟩) fun _ _ hv => hv

/-- **A continuation that gives the value a name**, as long as the code made for a name is code for what
comes next. -/
theorem Accepts.receiveVar {β : Type} {g : Var → Gen Res} {f : Env → Val → Effect Event Val β}
    {K : Env → β → Trace → Prop} {H : Env → Val → Trace → Prop} (hs₀ : s.Extends s₀)
    (hbelow : ∀ x ∈ B, x.id < s.supply)
    (hg : ∀ x s', s₀.Extends s' → Makes (g x) s' fun r s'' => G.Held s'' →
      ∀ (N M ρ : Env) t v, N.Sub M → M.Sub ρ → Clear M s.supply B → x.id < s'.supply → x ∉ B →
        ρ x = some v → (f N v).Sure t (G.Good (K M) (H M)) → G.Leads ρ t r) :
    G.Accepts (.receiveVar fun x _ => g x) s₀ B T (Kept s.supply B (G.Rest f K H)) :=
  .ofVar (fun x hx => Nat.lt_of_lt_of_le (hbelow x hx) hs₀.1) Kept.up (Kept.ground hs₀.1)
    (fun _ => rfl) (fun _ _ => rfl) fun s' _ x hs _ => (hg x s' hs).mono
      fun _ _ _ hr hheld _ ρ t v hM hx hxB hv ⟨N, M₀, hN, hM₀, hclear, hrest⟩ =>
        hr hheld N M₀ ρ t v hN (hM₀.trans hM) hclear hx hxB hv hrest

end Goal

end MLton.Ssa.DirectExp
