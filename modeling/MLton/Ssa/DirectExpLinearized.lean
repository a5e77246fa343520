import MLton.Machinery.Fold
import MLton.Ssa.DirectExpCode

/-!
# Ssa/DirectExpLinearized — `linearize` keeps what an expression means

One lemma per constructor: if evaluating the expression is sure to satisfy what the continuation and the
handler ask, then running its code is sure to reach the goal (`Goal.Sound`).  Together they say that the
graph `linearize` makes does what evaluation does (`linearize_evaluates`).
-/

namespace MLton.Ssa.DirectExp

open MLton.Effects

namespace Goal

variable {G : Goal} {k : Cont} {s s₀ : State} {B : Set Var} {T : Set Ty}
  {K : Env → Val → Trace → Prop} {h : Handler} {H : Env → Val → Trace → Prop}

/-- The code of the expression is code for its evaluation, whatever the handler and continuation. -/
def Sound (G : Goal) (e : DirectExp) : Prop :=
  ∀ ⦃h k s B T K H⦄, (∀ x ∈ e.binders, x.id < s.supply) → G.Accepts k s B T K →
    G.Handles h s H → e.sends ⊆ T → Disjoint e.binders B →
      Makes (loop e h k) s fun r s' => G.Held s' →
        G.Code (e.eval G.world) s.supply (e.binders ∪ B) K H r

/-- What is asked of the values still to come, those of `ac` being there. -/
def Acc (ac : List Var) (K : Env → List Val → Trace → Prop) : Env → List Val → Trace → Prop :=
  fun M vs t => ∃ ws, M.all ac.reverse = some ws ∧ K M (ws ++ vs) t

/-- The code of a list of expressions is code for their evaluation. -/
def SoundList (G : Goal) (es : List DirectExp) : Prop :=
  ∀ ⦃h ac kk s B K H⦄, (∀ x ∈ bindersList es, x.id < s.supply) → (∀ x ∈ B, x.id < s.supply) →
    G.Handles h s H → (∀ {M M' : Env} {vs t}, M.Sub M' → K M vs t → K M' vs t) →
    Disjoint (bindersList es) B →
    (∀ xs s', s.Extends s' → Makes (kk xs) s' fun r s'' => G.Held s'' → ∀ (M ρ : Env) t vs,
      M.Sub ρ → (∀ x ∈ xs, x.id < s'.supply ∧ x ∉ B) → ρ.all xs = some vs → K M vs t →
        G.Leads ρ t r) →
      Makes (loops es h ac kk) s fun r s' => G.Held s' →
        G.Code (evalList G.world es) s.supply (bindersList es ∪ B) (Acc ac K) H r

/-! ## Lists of expressions -/

theorem soundList_nil : G.SoundList [] := by
  intro h ac kk s B K H _ _ _ _ _ hkk
  refine (hkk ac.reverse s (.refl s)).mono fun r s' _ hr hheld N M ρ t _ hM hclear hsure => ?_
  obtain ⟨ws, hws, hK⟩ := Effect.sure_stop.mp hsure
  refine hr hheld M ρ t ws hM (fun x hx => ?_) (hM.all hws) (by simpa using hK)
  obtain ⟨v, hv⟩ := Env.exists_of_all hws hx
  exact ⟨(hclear x v hv).1, fun hxB => (hclear x v hv).2 (Or.inr hxB)⟩

theorem soundList_cons {e : DirectExp} {es : List DirectExp} (he : G.Sound e)
    (hes : G.SoundList es) (hdisj : Disjoint e.binders (bindersList es)) :
    G.SoundList (e :: es) := by
  intro h ac kk s B K H hbelow hB hh hup hdisjB hkk
  simp only [bindersList, Set.disjoint_union_left] at hdisjB
  have hbelowE : ∀ x ∈ e.binders, x.id < s.supply := fun x hx => hbelow x (Or.inl hx)
  have hbelowEs : ∀ x ∈ bindersList es ∪ B, x.id < s.supply :=
    fun x hx => hx.elim (fun hx => hbelow x (Or.inr hx)) (hB x)
  refine (he hbelowE (Accepts.receiveVar (f := fun N v => (evalList G.world es N).bind fun vs =>
    .stop (.value (v :: vs))) (K := Acc ac K) (T := Set.univ) (.refl s) hbelowEs fun x s' hs => ?_)
    hh (Set.subset_univ _) (Set.disjoint_union_right.mpr ⟨hdisj, hdisjB.1⟩)).mono
    fun r s' _ hr hheld => code_bind (hr hheld) ?_ ?_
  · refine (hes (K := K) (fun y hy => Nat.lt_of_lt_of_le (hbelow y (Or.inr hy)) hs.1)
      (fun y hy => Nat.lt_of_lt_of_le (hB y hy) hs.1) (hh.of_extends hs) hup hdisjB.2
      fun xs s'' hs' => hkk xs s'' (hs.trans hs')).mono
      fun r s'' _ hr hheld N M ρ t v hN hM hclear hx hxB hv hsure => ?_
    have hMx : M.Sub (M.set x v) :=
      show M.Sub (M.sets [x] [v]) from Env.sub_sets hM (Env.all_singleton.mpr hv)
    refine hr hheld N (M.set x v) ρ t (hN.trans hMx) (hM.set_left hv) ?_ ?_
    · exact (hclear.mono hs.1 fun _ h => h).set hx hxB
    · refine (sure_bind_good.mp hsure).mono fun o t' ho => ho.mono ?_ fun _ _ => hh.up hMx
      intro vs t'' hvs
      obtain ⟨ws, hws, hK⟩ := Effect.sure_stop.mp hvs
      refine ⟨ws ++ [v], ?_, by simpa using hup hMx hK⟩
      rw [List.reverse_cons]
      exact Env.all_append (hMx.all hws) (Env.all_singleton.mpr Env.set_self)
  · simp only [bindersList]
    exact Set.union_subset (Set.subset_union_left.trans Set.subset_union_left)
      (Set.union_subset (Set.subset_union_right.trans Set.subset_union_left) Set.subset_union_right)
  · simp only [bindersList]
    exact Set.union_subset_union_left B Set.subset_union_right

/-- The arguments of an operation, and what is done with them. -/
theorem makes_args {es : List DirectExp} {f : List Val → Effect Event Val Val}
    {kk : List Var → Gen Res} (hes : G.SoundList es) (hbelow : ∀ x ∈ bindersList es, x.id < s.supply)
    (hB : ∀ x ∈ B, x.id < s.supply) (hh : G.Handles h s H)
    (hup : ∀ {M M' : Env} {v t}, M.Sub M' → K M v t → K M' v t) (hdisj : Disjoint (bindersList es) B)
    (hkk : ∀ xs s', s.Extends s' → Makes (kk xs) s' fun r s'' => G.Held s'' → ∀ (M ρ : Env) t vs,
      M.Sub ρ → (∀ x ∈ xs, x.id < s'.supply ∧ x ∉ B) → ρ.all xs = some vs →
        (f vs).Sure t (G.Good (K M) (H M)) → G.Leads ρ t r) :
    Makes (loops es h [] kk) s fun r s' => G.Held s' →
      G.Code (fun N => (evalList G.world es N).bind f) s.supply (bindersList es ∪ B) K H r := by
  refine (hes (K := fun M vs t => (f vs).Sure t (G.Good (K M) (H M))) hbelow hB hh
    (fun hM hvs => hvs.mono fun o t' ho => ho.mono (fun _ _ => hup hM) fun _ _ => hh.up hM)
    hdisj hkk).mono fun r s' _ hr hheld N M ρ t hN hM hclear hsure => ?_
  refine hr hheld N M ρ t hN hM hclear ((sure_bind_good.mp hsure).mono fun o t' ho => ho.mono ?_ ?_)
  · exact fun vs t' hvs => ⟨[], rfl, hvs⟩
  · exact fun _ _ hv => hv

/-! ## Expressions whose arguments are named first -/

theorem sound_bug : G.Sound bug := by
  intro h k s B T K H _ _ _ _ _
  refine makes_pure fun _ N M ρ t _ _ _ hsure => leads_transfer ?_
  rw [eval, Effect.sure_stop] at hsure
  exact hsure

theorem sound_const {c : Const} : G.Sound (const c) := by
  intro h k s B T K H _ hk _ hT _
  refine (hk.exp s _ (.const c) (.refl s) (hT rfl) (by simp)).mono
    fun r s' _ hr hheld N M ρ t _ hM _ hsure => hr hheld M ρ t hM (by simp [Exp.vars]) ?_
  rw [eval, Effect.sure_stop] at hsure
  exact hsure

theorem sound_profile {e : ProfileExp} : G.Sound (profile e) := by
  intro h k s B T K H _ hk _ hT _
  refine (hk.exp s _ (.profile e) (.refl s) (hT rfl) (by simp)).mono
    fun r s' _ hr hheld N M ρ t _ hM _ hsure => hr hheld M ρ t hM (by simp [Exp.vars]) ?_
  rw [eval, Effect.sure_lift] at hsure
  exact hsure

theorem sound_var {x : Var} {ty : Ty} : G.Sound (var x ty) := by
  intro h k s B T K H _ hk _ hT _
  refine (hk.var s ty x (.refl s) (hT rfl)).mono
    fun r s' _ hr hheld N M ρ t hN hM hclear hsure => ?_
  obtain ⟨v, hv, hK⟩ := sure_ofOption.mp hsure
  obtain ⟨hx, hxB⟩ := hclear x v (hN x v hv)
  exact hr hheld M ρ t v hM hx (fun h => hxB (Or.inr h)) (hM x v (hN x v hv)) hK

/-- A right-hand side that only the world can keep from having a value. -/
theorem makes_sendExp (ex : List Var → Exp) (g : List Val → Trace → Result Val Val × Trace) {ty : Ty}
    (hk : G.Accepts k s₀ B T K) (hs : s₀.Extends s) (hty : ty ∈ T) {xs : List Var}
    (htuple : ∀ m, ex xs = .tuple xs m → ty.deTupleOpt.isSome) (hvars : (ex xs).vars = xs)
    (heval : ∀ ρ : Env, ∀ vs t, ρ.all xs = some vs → (ex xs).eval G.world ρ t = g vs t)
    (hraised : ∀ vs t v, (g vs t).1 ≠ .raised v) :
    Makes (k.sendExp ty (ex xs)) s fun r s' => G.Held s' → ∀ (M ρ : Env) t vs, M.Sub ρ →
      (∀ x ∈ xs, x.id < s.supply ∧ x ∉ B) → ρ.all xs = some vs →
        (Effect.lift (g vs)).Sure t (G.Good (K M) (H M)) → G.Leads ρ t r := by
  refine (hk.exp s ty (ex xs) hs hty fun ys m h => htuple m ?_).mono
    fun r s' _ hr hheld M ρ t vs hM hxs hvs hsure => hr hheld M ρ t hM (by rwa [hvars]) ?_
  · rw [h] at hvars ⊢
    exact congrArg (Exp.tuple · m) hvars
  · rw [heval ρ vs t hvs]
    have hgood := Effect.sure_lift.mp hsure
    cases hg : (g vs t).1 with
    | raised v => exact absurd hg (hraised vs t v)
    | value | bug | gone | wrong =>
      rw [hg] at hgood
      exact hgood

theorem sound_conApp {con : Con} {args : List DirectExp} {mode : Mode} {ty : Ty}
    (hargs : G.SoundList args) : G.Sound (conApp con args mode ty) := by
  intro h k s B T K H hbelow hk hh hT hdisj
  refine makes_args (f := fun vs => .stop (.value (.con con vs))) hargs hbelow hk.below hh hk.up hdisj
    fun xs s' hs => ?_
  exact makes_sendExp (fun xs => .conApp con xs mode) (fun vs t => (.value (.con con vs), t))
    hk hs (hT rfl) (by simp) rfl (by simp +contextual [Exp.eval]) (by simp)

theorem sound_tuple {exps : List DirectExp} {mode : Mode} {ty : Ty} (hexps : G.SoundList exps)
    (hty : ty.deTupleOpt.isSome) : G.Sound (tuple exps mode ty) := by
  intro h k s B T K H hbelow hk hh hT hdisj
  refine makes_args (f := fun vs => .stop (.value (.tuple vs))) hexps hbelow hk.below hh hk.up hdisj
    fun xs s' hs => ?_
  exact makes_sendExp (fun xs => .tuple xs mode) (fun vs t => (.value (.tuple vs), t))
    hk hs (hT rfl) (fun _ _ => hty) rfl (by simp +contextual [Exp.eval]) (by simp)

theorem primApp_not_raised (W : World) (prim : Prim) (targs : List Ty) (mode : Option Mode)
    (vs : List Val) (t : Trace) (v : Val) : (W.primApp prim targs mode vs t).1 ≠ .raised v := by
  unfold World.primApp
  split <;> simp

theorem sound_primApp {prim : Prim} {targs : List Ty} {mode : Option Mode} {args : List DirectExp}
    {ty : Ty} (hargs : G.SoundList args) : G.Sound (primApp prim targs mode args ty) := by
  intro h k s B T K H hbelow hk hh hT hdisj
  refine makes_args (f := fun vs => .lift (G.world.primApp prim targs mode vs)) hargs hbelow hk.below
    hh hk.up hdisj fun xs s' hs => ?_
  exact makes_sendExp (fun xs => .primApp prim targs mode xs)
    (fun vs t => G.world.primApp prim targs mode vs t)
    hk hs (hT rfl) (by simp) rfl (by simp +contextual [Exp.eval]) (primApp_not_raised _ _ _ _)

/-- Where a call comes back, the continuation or the handler is asked. -/
theorem goes_next {l : Label} {ρ : Env} {t : Trace} {r : Result Val Val} {K H : Val → Trace → Prop}
    (hr : G.Good K H r t) (hl : ∀ v, K v t → G.Enters ρ t l [v])
    (hh : ∀ v, H v t → G.Goes ρ (Handler.next v h) t) :
    G.Goes ρ (Return.next (.nonTail l h) r) t := by
  cases r with
  | value v => exact hl v hr
  | raised v => exact hh v hr
  | bug | gone => exact hr
  | wrong => exact hr.elim

theorem sound_call {func : Func} {args : List DirectExp} {ty : Ty} (hargs : G.SoundList args) :
    G.Sound (call func args ty) := by
  intro h k s B T K H hbelow hk hh hT hdisj
  refine makes_args (f := fun vs => .lift (G.world.callFunc func vs)) hargs hbelow hk.below hh hk.up
    hdisj fun xs s' hs => ?_
  refine (makes_reify (hk.of_extends hs) (hT rfl)).bind fun l s'' hs' hl => makes_pure ?_
  intro hheld M ρ t vs hM _ hvs hsure
  have hgood := Effect.sure_lift.mp hsure
  refine leads_transfer ?_
  simp only [Transfer.eval, hvs]
  exact goes_next hgood (fun v hv => hl hheld M ρ _ v hM hv) fun v hv =>
    (hh.of_extends (hs.trans hs')).goes hheld M ρ _ v hM hv

/-- The block the runtime comes back to. -/
theorem makes_runtimeReturn {ty : Ty} (hk : G.Accepts k s₀ B T K) (hty : ty ∈ T)
    (hunit : ∀ ts, ty.deTupleOpt = some ts → ts = []) :
    Makes (runtimeReturn ty k) s₀ fun l s' => G.Held s' → ∀ (M ρ : Env) t rs v, M.Sub ρ →
      runtimeValue ty rs = some v → K M v t → G.Enters ρ t l rs := by
  unfold runtimeReturn
  cases hts : ty.deTupleOpt with
  | none =>
    refine makes_newVar_bind ((hk.var _ ty ⟨s₀.supply⟩ s₀.extends_succ hty).bind fun r s' _ hr => makes_newBlock ?_)
    intro hheld M ρ t rs v hM hv hK
    obtain ⟨w, rfl⟩ : ∃ w, rs = [w] := by
      match rs, hv with
      | [], hv => simp [runtimeValue, hts] at hv
      | [w], _ => exact ⟨w, rfl⟩
      | _ :: _ :: _, hv => simp [runtimeValue] at hv
    obtain rfl : w = v := by simpa [runtimeValue, hts] using hv
    obtain ⟨M₀, hM₀, hclear, hK⟩ := hk.ground hK
    refine ⟨_, hheld _ (List.mem_cons_self ..), rfl, ?_⟩
    refine hr (fun b hb => hheld b (List.mem_cons_of_mem _ hb)) M₀ _ t w ?_ (Nat.lt_succ_self _)
      (fun h => absurd (hk.below _ h) (Nat.lt_irrefl _)) Env.set_self hK
    exact hclear.sub_set (Nat.le_refl _) (hM₀.trans hM)
  | some ts =>
    obtain rfl := hunit ts hts
    refine (hk.exp s₀ ty (.tuple [] .heap) (.refl s₀) hty fun _ _ _ => by simp [hts]).bind
      fun r s' _ hr => makes_newBlock ?_
    intro hheld M ρ t rs v hM hv hK
    obtain rfl : rs = [] := by
      match rs, hv with
      | [], _ => rfl
      | [w], hv => simp [runtimeValue, hts] at hv
      | _ :: _ :: _, hv => simp [runtimeValue] at hv
    obtain rfl : Val.unit = v := by simpa [runtimeValue, hts] using hv
    refine ⟨_, hheld _ (List.mem_cons_self ..), rfl, ?_⟩
    exact hr (fun b hb => hheld b (List.mem_cons_of_mem _ hb)) M ρ t hM (by simp [Exp.vars]) hK

theorem sound_runtime {args : List DirectExp} {prim : Prim} {ty : Ty} (hargs : G.SoundList args)
    (hunit : ∀ ts, ty.deTupleOpt = some ts → ts = []) : G.Sound (runtime args prim ty) := by
  intro h k s B T K H hbelow hk hh hT hdisj
  refine makes_args (f := fun vs => (Effect.lift (G.world.runtimeCall prim vs)).bind fun rs =>
    ofOption (runtimeValue ty rs)) hargs hbelow hk.below hh hk.up hdisj fun xs s' hs => ?_
  refine (makes_reify (hk.of_extends hs) (hT rfl)).bind fun l s₁ hs₁ hl => ?_
  refine (makes_runtimeReturn (hk.goto (hs.trans hs₁) hl) (Set.mem_univ ty) hunit).bind
    fun l' s₂ _ hl' => makes_pure ?_
  intro hheld M ρ t vs hM _ hvs hsure
  have hgood := Effect.sure_lift.mp (sure_bind_good.mp hsure)
  refine leads_transfer ?_
  simp only [Transfer.eval, hvs]
  cases hr : (G.world.runtimeCall prim vs t).1 with
  | value rs =>
    rw [hr] at hgood
    obtain ⟨v, hv, hK⟩ := sure_ofOption.mp hgood
    exact hl' hheld M ρ _ rs v hM hv hK
  | gone =>
    rw [hr] at hgood
    exact hgood
  | raised v =>
    unfold World.runtimeCall at hr
    split at hr <;> simp_all
  | bug | wrong =>
    unfold World.runtimeCall at hr
    split at hr <;> simp_all

/-! ## Expressions whose value is named first -/

theorem sound_select {e : DirectExp} {offset : ℕ} {ty : Ty} (he : G.Sound e) :
    G.Sound (select e offset ty) := by
  intro h k s B T K H hbelow hk hh hT hdisj
  refine (he hbelow (Accepts.receiveVar (f := fun _ v => ofOption (v.component offset)) (K := K)
    (T := Set.univ) (.refl s) hk.below fun x s' hs => ?_) hh (Set.subset_univ _) hdisj).mono
    fun r s' _ hr hheld => code_bind (hr hheld) subset_rfl Set.subset_union_right
  refine (hk.exp s' ty (.select x offset) hs (hT rfl) (by simp)).mono ?_
  intro r s'' _ hr hheld N M ρ t v _ hM _ hx hxB hv hsure
  obtain ⟨w, hw, hK⟩ := sure_ofOption.mp hsure
  exact hr hheld M ρ t hM (by simpa [Exp.vars] using ⟨hx, hxB⟩)
    (by simpa [Exp.eval, hv, hw, Good] using hK)

theorem makes_raiseTo {x : Var} (hh : G.Handles h s₀ H) (hs : s₀.Extends s) :
    Makes (raiseTo x h) s fun r s' => G.Held s' → ∀ (M ρ : Env) t v, M.Sub ρ → ρ x = some v →
      H M v t → G.Leads ρ t r := by
  cases h with
  | dead => exact absurd rfl hh.live
  | caller =>
    refine makes_pure fun hheld M ρ t v hM hv hH => leads_transfer ?_
    simpa [Transfer.eval, Env.all, hv, Handler.next] using
      hh.goes (hheld.of_extends hs) M ρ t v hM hH
  | handle l =>
    exact makes_pure fun hheld M ρ t v hM hv hH => leads_goto (Env.all_singleton.mpr hv)
      (hh.goes (hheld.of_extends hs) M ρ t v hM hH)

theorem sound_raise {e : DirectExp} (he : G.Sound e) : G.Sound (raise e) := by
  intro h k s B T K H hbelow hk hh _ hdisj
  refine (he hbelow (Accepts.receiveVar (f := fun _ v => .stop (.raised v)) (K := K)
    (T := Set.univ) (.refl s) hk.below fun x s' hs => ?_) hh (Set.subset_univ _) hdisj).mono
    fun r s' _ hr hheld => code_bind (hr hheld) subset_rfl Set.subset_union_right
  refine (makes_raiseTo hh hs).mono fun r s'' _ hr hheld N M ρ t v _ hM _ _ _ hv hsure => ?_
  exact hr hheld M ρ t v hM hv (Effect.sure_stop.mp hsure)

theorem sound_seq {e₁ e₂ : DirectExp} (he₁ : G.Sound e₁) (he₂ : G.Sound e₂)
    (hdisj : Disjoint e₁.binders e₂.binders) : G.Sound (seq e₁ e₂) := by
  intro h k s B T K H hbelow hk hh hT hdisjB
  simp only [binders, Set.disjoint_union_left] at hdisjB
  refine (he₁ (fun x hx => hbelow x (Or.inl hx)) (Accepts.receiveVar
    (f := fun N _ => e₂.eval G.world N) (K := K) (T := Set.univ) (B := e₂.binders ∪ B) (.refl s)
    (fun x hx => hx.elim (fun hx => hbelow x (Or.inr hx)) (hk.below x)) fun x s' hs => ?_) hh
    (Set.subset_univ _) (Set.disjoint_union_right.mpr ⟨hdisj, hdisjB.1⟩)).mono
    fun r s' _ hr hheld => code_bind (hr hheld) ?_ ?_
  · refine (he₂ (fun y hy => Nat.lt_of_lt_of_le (hbelow y (Or.inr hy)) hs.1) (hk.of_extends hs)
      (hh.of_extends hs) hT hdisjB.2).mono
      fun r s'' _ hr hheld N M ρ t v hN hM hclear _ _ _ hsure => ?_
    exact hr hheld N M ρ t hN hM (hclear.mono hs.1 fun _ h => h) hsure
  · simp only [binders, Set.union_assoc, subset_rfl]
  · exact Set.union_subset_union_left B Set.subset_union_right

theorem binders_subset {ι : Type} (f : ι → DirectExp) (i : ι) :
    (f i).binders ⊆ {x | ∃ i, x ∈ (f i).binders} :=
  fun _ hx => ⟨i, hx⟩

/-- Code for a body that has been given variables for values. -/
theorem leads_body {ι : Type} {f : ι → DirectExp} {i : ι} {n n' : Supply} (xs : List Var)
    (vs : List Val) {r : Res} (hn : n ≤ n')
    (hr : G.Code ((f i).eval G.world) n' ((f i).binders ∪ B) K H r)
    (hup : ∀ {M M' : Env} {v t}, M.Sub M' → K M v t → K M' v t)
    (hHup : ∀ {M M' : Env} {v t}, M.Sub M' → H M v t → H M' v t) {N M ρ : Env} {t : Trace}
    (hN : N.Sub M) (hM : M.Sub ρ) (hclear : Clear M n ({x | ∃ i, x ∈ (f i).binders} ∪ B))
    (hxs : ∀ x ∈ xs, x.id < n' ∧ x ∉ {x | ∃ i, x ∈ (f i).binders} ∪ B) (hvs : ρ.all xs = some vs)
    (hsure : N.Stands {x | ∃ i, x ∈ (f i).binders} xs vs →
      ((f i).eval G.world (N.sets xs vs)).Sure t (G.Good (K M) (H M))) : G.Leads ρ t r := by
  have hsub : M.Sub (M.sets xs vs) := Env.sub_sets hM hvs
  refine hr (N.sets xs vs) (M.sets xs vs) ρ t hN.sets (hM.sets_left hvs) ?_ ?_
  · exact ((hclear.mono hn fun _ h => h).sets hxs).mono (Nat.le_refl _)
      (Set.union_subset_union_left B (binders_subset f i))
  · refine (hsure ⟨⟨ρ, hN.trans hM, hvs⟩, fun x hx hxB => (hxs x hx).2 (Or.inl hxB)⟩).mono
      fun o t' ho => ho.mono (fun _ _ => hup hsub) fun _ _ => hHup hsub

theorem sound_name {e : DirectExp} {f : Var → DirectExp} (he : G.Sound e)
    (hf : ∀ x, G.Sound (f x)) (hdisj : Disjoint e.binders {x | ∃ y, x ∈ (f y).binders}) :
    G.Sound (name e f) := by
  intro h k s B T K H hbelow hk hh hT hdisjB
  simp only [binders, Set.disjoint_union_left] at hdisjB
  refine (he (fun x hx => hbelow x (Or.inl hx)) (Accepts.receiveVar
    (f := fun N v => .choose {x | N.Stands {x | ∃ y, x ∈ (f y).binders} [x] [v]}
      fun x => (f x).eval G.world (N.set x v)) (K := K) (T := Set.univ)
    (B := {x | ∃ y, x ∈ (f y).binders} ∪ B) (.refl s)
    (fun x hx => hx.elim (fun hx => hbelow x (Or.inr hx)) (hk.below x)) fun x s' hs => ?_) hh
    (Set.subset_univ _) (Set.disjoint_union_right.mpr ⟨hdisj, hdisjB.1⟩)).mono
    fun r s' _ hr hheld => code_bind (hr hheld) ?_ ?_
  · refine (hf x (fun y hy => Nat.lt_of_lt_of_le (hbelow y (Or.inr ⟨x, hy⟩)) hs.1)
      (hk.of_extends hs) (hh.of_extends hs) (fun ty hty => hT ⟨x, hty⟩)
      (hdisjB.2.mono_left (binders_subset f x))).mono
      fun r s'' _ hr hheld N M ρ t v hN hM hclear hx hxB hv hsure => ?_
    exact leads_body [x] [v] hs.1 (hr hheld) hk.up hh.up hN hM hclear
      (fun _ hy => List.mem_singleton.mp hy ▸ ⟨hx, hxB⟩) (Env.all_singleton.mpr hv)
      fun hstands => Effect.sure_choose.mp hsure x hstands
  · simp only [binders, Set.union_assoc, subset_rfl]
  · exact Set.union_subset_union_left B Set.subset_union_right

/-! ## Tuples taken apart -/

/-- The statements that bind the components of a tuple from `i` on. -/
def selectsFrom (tuple : Var) (i : ℕ) : List (Var × Ty) → List Statement
  | [] => []
  | (x, ty) :: xs =>
    { var := some x, ty, exp := .select tuple i } :: selectsFrom tuple (i + 1) xs

theorem foldl_selects {tuple : Var} : ∀ (xs : List (Var × Ty)) (i : ℕ) (ss : List Statement),
    ((xs.zipIdx i).foldl (fun ss ((x, ty), i) =>
      ({ var := some x, ty, exp := .select tuple i } : Statement) :: ss) ss).reverse =
        ss.reverse ++ selectsFrom tuple i xs
  | [], _, _ => by simp [selectsFrom]
  | (x, ty) :: xs, i, ss => by
    rw [List.zipIdx_cons, List.foldl_cons, foldl_selects xs (i + 1)]
    simp [selectsFrom]

theorem leads_selectsFrom {tuple : Var} {vs : List Val} {t : Trace} {r : Res} :
    ∀ (xs : List Var) (ts : List Ty) (i : ℕ) (ρ : Env), ρ tuple = some (.tuple vs) → tuple ∉ xs →
      xs.length = ts.length → vs.length = i + xs.length →
      G.Leads (ρ.sets xs (vs.drop i)) t r →
        G.Leads ρ t ⟨selectsFrom tuple i (xs.zip ts) ++ r.statements, r.transfer⟩
  | [], _, _, _, _, _, _, _, hr => hr
  | x :: xs, ty :: ts, i, ρ, hρ, htuple, hts, hvs, hr => by
    have hi : i < vs.length := by rw [hvs, List.length_cons]; omega
    rw [List.drop_eq_getElem_cons hi] at hr
    refine leads_statement (r := ⟨selectsFrom tuple (i + 1) (xs.zip ts) ++ r.statements, r.transfer⟩)
      ?_
    have heval : Exp.eval G.world ρ (.select tuple i) t = (.value vs[i], t) := by
      simp [Exp.eval, hρ, Val.component, List.getElem?_eq_getElem hi]
    rw [heval]
    refine leads_selectsFrom xs ts (i + 1) _ ?_ (fun h => htuple (List.mem_cons_of_mem _ h))
      (Nat.succ.inj hts) (by rw [hvs, List.length_cons]; omega) hr
    rwa [Env.set_of_ne (by rintro rfl; exact htuple (List.mem_cons_self ..))]

/-- **Selecting the components** of a tuple binds them. -/
theorem makes_selects {tuple : Var} {ty : Ty} {xs : List Var} (hty : ty.HasComponents xs.length)
    (hxs : 2 ≤ xs.length) : Makes (selects tuple ty xs) s fun ss s' => s' = s ∧
      ∀ (ρ : Env) t vs r, ρ tuple = some (.tuple vs) → tuple ∉ xs → vs.length = xs.length →
        G.Leads (ρ.sets xs vs) t r → G.Leads ρ t ⟨ss.reverse ++ r.statements, r.transfer⟩ := by
  unfold Ty.HasComponents at hty
  unfold selects
  cases hts : ty.deTupleOpt with
  | none =>
    rw [hts] at hty
    dsimp only at hty
    omega
  | some ts =>
    rw [hts] at hty
    dsimp only at hty ⊢
    rw [if_pos (Nat.le_of_eq hty.1)]
    refine makes_pure ⟨rfl, fun ρ t vs r hρ htuple hvs hr => ?_⟩
    rw [foldl_selects]
    exact leads_selectsFrom xs ts 0 ρ hρ htuple hty.1.symm (by omega) hr

theorem makes_freshVars : ∀ (n : ℕ) {s : State},
    Makes ((List.replicate n ()).mapM fun _ => newVar) s fun xs s' => xs.length = n ∧ xs.Nodup ∧
      ∀ x ∈ xs, s.supply ≤ x.id ∧ x.id < s'.supply
  | 0, s => makes_pure (by simp)
  | n + 1, s => by
    rw [List.replicate_succ, List.mapM_cons]
    refine makes_newVar_bind ((makes_freshVars n).bind fun xs s' hs hxs => makes_pure ?_)
    obtain ⟨hlength, hnodup, hrange⟩ := hxs
    refine ⟨by rw [List.length_cons, hlength], List.nodup_cons.mpr ⟨fun h => ?_, hnodup⟩, ?_⟩
    · exact absurd (hrange _ h).1 (Nat.not_succ_le_self _)
    · simp only [List.mem_cons, forall_eq_or_imp]
      exact ⟨⟨Nat.le_refl _, hs.1⟩, fun x hx =>
        ⟨Nat.le_of_succ_le (hrange x hx).1, (hrange x hx).2⟩⟩

/-- What names the components of a value, and the code that binds them. -/
theorem makes_freshComponents {x : Var} {ty : Ty} {length : ℕ} (hty : ty.HasComponents length) :
    Makes (freshComponents x ty length) s fun p s' =>
      (∀ y ∈ p.2, y = x ∨ s.supply ≤ y.id ∧ y.id < s'.supply) ∧
      ∀ (ρ : Env) t v vs, ρ x = some v → x.id < s.supply → v.components length = some vs →
        ∃ σ : Env, (∀ M : Env, Clear M s.supply ∅ → M.Sub ρ → M.Sub σ) ∧ σ.all p.2 = some vs ∧
          ∀ r, G.Leads σ t r → G.Leads ρ t ⟨p.1.reverse ++ r.statements, r.transfer⟩ := by
  match length with
  | 0 =>
    refine makes_pure ⟨by simp, fun ρ t v vs _ _ hvs => ⟨ρ, fun _ _ h => h, ?_, fun _ hr => hr⟩⟩
    obtain ⟨-, hlength⟩ := Val.eq_tuple_of_components hvs (by decide)
    obtain rfl := List.length_eq_zero_iff.mp hlength
    rfl
  | 1 =>
    refine makes_pure ⟨by simp, fun ρ t v vs hv _ hvs => ⟨ρ, fun _ _ h => h, ?_, fun _ hr => hr⟩⟩
    obtain rfl : [v] = vs := by simpa [Val.components] using hvs
    exact Env.all_singleton.mpr hv
  | n + 2 =>
    refine (makes_freshVars (n + 2)).bind fun xs s₁ hs₁ hxs => ?_
    obtain ⟨hlength, hnodup, hrange⟩ := hxs
    refine (makes_selects (G := G) (by rwa [hlength]) (by omega)).bind ?_
    rintro ss _ - ⟨rfl, hselects⟩
    refine makes_pure ⟨fun y hy => Or.inr (hrange y hy), fun ρ t v vs hv hx hvs => ?_⟩
    obtain ⟨rfl, hvsLength⟩ := Val.eq_tuple_of_components hvs (by omega)
    refine ⟨ρ.sets xs vs, fun M hclear hM => ?_, ?_, fun r hr => ?_⟩
    · exact hclear.sub_sets (fun y hy => Or.inl (hrange y hy).1) hM
    · exact Env.all_sets hnodup (by omega)
    · refine hselects ρ t vs r hv (fun h => ?_) (by omega) hr
      exact absurd (hrange x h).1 (Nat.not_le.mpr hx)

theorem sound_detuple {body : List Var → DirectExp} {length : ℕ} {e : DirectExp} (he : G.Sound e)
    (hbody : ∀ xs, G.Sound (body xs)) (hdisj : Disjoint e.binders {x | ∃ xs, x ∈ (body xs).binders})
    (hlength : ∀ ty ∈ e.sends, ty.HasComponents length) : G.Sound (detuple body length e) := by
  intro h k s B T K H hbelow hk hh hT hdisjB
  simp only [binders, Set.disjoint_union_left] at hdisjB
  have hB : ∀ x ∈ {x | ∃ xs, x ∈ (body xs).binders} ∪ B, x.id < s.supply :=
    fun x hx => hx.elim (fun hx => hbelow x (Or.inr hx)) (hk.below x)
  -- the code of the body, once its names are there
  have hloop : ∀ xs s', s.Extends s' → Makes (loop (body xs) h k) s' fun r s'' => G.Held s'' →
      ∀ (N M ρ : Env) t vs, N.Sub M → M.Sub ρ →
        Clear M s.supply ({x | ∃ xs, x ∈ (body xs).binders} ∪ B) →
        (∀ x ∈ xs, x.id < s'.supply ∧ x ∉ {x | ∃ xs, x ∈ (body xs).binders} ∪ B) →
        ρ.all xs = some vs →
        (Effect.choose {xs | N.Stands {x | ∃ ys, x ∈ (body ys).binders} xs vs} fun xs =>
          (body xs).eval G.world (N.sets xs vs)).Sure t (G.Good (K M) (H M)) → G.Leads ρ t r := by
    intro xs s' hs
    refine (hbody xs (fun y hy => Nat.lt_of_lt_of_le (hbelow y (Or.inr ⟨xs, hy⟩)) hs.1)
      (hk.of_extends hs) (hh.of_extends hs) (fun ty hty => hT ⟨xs, hty⟩)
      (hdisjB.2.mono_left (binders_subset body xs))).mono
      fun r s'' _ hr hheld N M ρ t vs hN hM hclear hxs hvs hsure => ?_
    exact leads_body xs vs hs.1 (hr hheld) hk.up hh.up hN hM hclear hxs hvs
      fun hstands => Effect.sure_choose.mp hsure xs hstands
  let f : Env → Val → Effect Event Val Val := fun N v =>
    (ofOption (v.components length)).bind fun vs =>
      .choose {xs | N.Stands {x | ∃ ys, x ∈ (body ys).binders} xs vs}
        fun xs => (body xs).eval G.world (N.sets xs vs)
  -- the tuple has a name
  have hdoit : ∀ s' ty x, s.Extends s' → ty.HasComponents length →
      Makes (do
        let named ← freshComponents x ty length
        let r ← loop (body named.2) h k
        pure (⟨named.1.reverse ++ r.statements, r.transfer⟩ : Res)) s' fun r s'' => G.Held s'' →
      ∀ (N M ρ : Env) t v, N.Sub M → M.Sub ρ →
        Clear M s.supply ({x | ∃ xs, x ∈ (body xs).binders} ∪ B) → x.id < s'.supply →
        x ∉ {x | ∃ xs, x ∈ (body xs).binders} ∪ B → ρ x = some v →
        (f N v).Sure t (G.Good (K M) (H M)) → G.Leads ρ t r := by
    intro s' ty x hs hty
    refine (makes_freshComponents (G := G) hty).bind ?_
    rintro ⟨ss, xs⟩ s₁ hs₁ ⟨hnames, hcode⟩
    refine (hloop xs s₁ (hs.trans hs₁)).bind fun r s₂ hs₂ hr => makes_pure ?_
    intro hheld N M ρ t v hN hM hclear hx hxB hv hsure
    obtain ⟨vs, hvs, hsure⟩ := sure_ofOption.mp (sure_bind_good.mp hsure)
    obtain ⟨σ, hσ, hxs, hleads⟩ := hcode ρ t v vs hv hx hvs
    refine hleads r (hr hheld N M σ t vs hN ?_ hclear (fun y hy => ?_) hxs hsure)
    · exact hσ M (hclear.mono hs.1 (Set.empty_subset _)) hM
    · obtain rfl | ⟨hle, hlt⟩ := hnames y hy
      · exact ⟨Nat.lt_of_lt_of_le hx hs₁.1, hxB⟩
      · exact ⟨hlt, fun h => absurd (hB y h) (Nat.not_lt.mpr (Nat.le_trans hs.1 hle))⟩
  refine (he (fun x hx => hbelow x (Or.inl hx)) (Accepts.receiveExp (T := {ty | ty.HasComponents length})
    (K := Kept s.supply ({x | ∃ xs, x ∈ (body xs).binders} ∪ B) (G.Rest f K H)) hB Kept.up
    (Kept.ground (Nat.le_refl _)) fun s' ty ex hs hty htuple => ?_) hh
    (fun ty hty => hlength ty hty) (Set.disjoint_union_right.mpr ⟨hdisj, hdisjB.1⟩)).mono
    fun r s' _ hr hheld => code_bind (hr hheld) ?_ ?_
  · -- the tuple is a right-hand side that has to be given a name
    have hother : Makes (do
        let x ← newVar
        let r ← (do
          let named ← freshComponents x ty length
          let r ← loop (body named.2) h k
          pure (⟨named.1.reverse ++ r.statements, r.transfer⟩ : Res))
        pure (r.prefixWith { var := some x, ty, exp := ex })) s' fun r s'' => G.Held s'' →
        ∀ (M ρ : Env) t, M.Sub ρ →
        G.Good (Kept s.supply ({x | ∃ xs, x ∈ (body xs).binders} ∪ B) (G.Rest f K H) M)
          (fun _ _ => False) (ex.eval G.world ρ t).1 (ex.eval G.world ρ t).2 → G.Leads ρ t r := by
      refine makes_newVar_bind ((hdoit _ ty ⟨s'.supply⟩ (hs.trans s'.extends_succ) hty).bind
        fun r s'' _ hr => makes_pure fun hheld M ρ t hM hgood => leads_statement ?_)
      refine hgood.mono (fun v t' => ?_) fun _ _ hf => hf
      rintro ⟨N, M₀, hN, hM₀, hclear, hrest⟩
      refine hr hheld N M₀ _ t' v hN ?_ hclear (Nat.lt_succ_self _)
        (fun h => absurd (hB _ h) (Nat.not_lt.mpr hs.1)) Env.set_self hrest
      exact hclear.sub_set hs.1 (hM₀.trans hM)
    cases ex with
    | tuple xs m =>
      refine (hloop xs s' hs).mono fun r s'' _ hr hheld M ρ t hM hxs hgood => ?_
      cases hvs : ρ.all xs with
      | none =>
        simp [Exp.eval, hvs, Good] at hgood
      | some vs =>
        simp only [Exp.eval, hvs] at hgood
        obtain ⟨N, M₀, hN, hM₀, hclear, hrest⟩ := hgood
        obtain ⟨ws, hws, hsure⟩ := sure_ofOption.mp (sure_bind_good.mp hrest)
        obtain ⟨heq, -⟩ := Val.eq_tuple_of_components hws (hty.ne_one (htuple xs m rfl))
        obtain rfl := Val.tuple.inj heq
        exact hr hheld N M₀ ρ t vs hN (hM₀.trans hM) hclear hxs hvs hsure
    | var x =>
      refine (hdoit s' ty x hs hty).mono fun r s'' _ hr hheld M ρ t hM hxs hgood => ?_
      obtain ⟨hx, hxB⟩ := hxs x (List.mem_cons_self ..)
      cases hv : ρ x with
      | none => simp [Exp.eval, hv, Good] at hgood
      | some v =>
        simp only [Exp.eval, hv] at hgood
        obtain ⟨N, M₀, hN, hM₀, hclear, hrest⟩ := hgood
        exact hr hheld N M₀ ρ t v hN (hM₀.trans hM) hclear hx hxB hv hrest
    | conApp | const | primApp | profile | select =>
      exact hother.mono fun r s'' _ hr hheld M ρ t hM _ => hr hheld M ρ t hM
  · simp only [binders, Set.union_assoc, subset_rfl]
  · exact Set.union_subset_union_left B Set.subset_union_right

/-- The statements of a `detupleBind` bind the components. -/
theorem makes_detupleBinds {x : Var} {ty : Ty} {xs : List Var}
    (hty : 2 ≤ xs.length → ty.HasComponents xs.length) :
    Makes (detupleBinds x ty xs) s fun ss s' => s' = s ∧ ∀ (ρ : Env) t v vs r, ρ x = some v →
      x ∉ xs → v.components xs.length = some vs → G.Leads (ρ.sets xs vs) t r →
        G.Leads ρ t ⟨ss.reverse ++ r.statements, r.transfer⟩ := by
  match xs with
  | [] =>
    refine makes_pure ⟨rfl, fun ρ t v vs r _ _ hvs hr => ?_⟩
    obtain ⟨-, hlength⟩ := Val.eq_tuple_of_components hvs (by simp)
    obtain rfl := List.length_eq_zero_iff.mp hlength
    exact hr
  | [y] =>
    refine makes_pure ⟨rfl, fun ρ t v vs r hv _ hvs hr => leads_statement (r := r) ?_⟩
    obtain rfl : [v] = vs := by simpa [Val.components] using hvs
    simpa [Exp.eval, hv, Good, Env.sets] using hr
  | y :: z :: xs =>
    refine (makes_selects (G := G) (hty (by simp)) (by simp)).mono ?_
    rintro ss _ - ⟨rfl, hss⟩
    refine ⟨rfl, fun ρ t v vs r hv hx hvs hr => ?_⟩
    obtain ⟨rfl, hlength⟩ := Val.eq_tuple_of_components hvs (by simp)
    exact hss ρ t vs r hv hx hlength hr

theorem sound_detupleBind {body : DirectExp} {components : List Var} {x : Var} {ty : Ty}
    (hbody : G.Sound body) (hdisj : Disjoint {x | x ∈ components} body.binders)
    (hty : 2 ≤ components.length → ty.HasComponents components.length) :
    G.Sound (detupleBind body components x ty) := by
  intro h k s B T K H hbelow hk hh hT hdisjB
  simp only [binders, Set.disjoint_union_left] at hdisjB
  refine (hbody (fun x hx => hbelow x (Or.inr hx)) hk hh hT hdisjB.2).bind fun r s' _ hr => ?_
  refine (makes_detupleBinds (G := G) hty).bind ?_
  rintro ss _ - ⟨rfl, hss⟩
  refine makes_pure fun hheld N M ρ t hN hM hclear hsure => ?_
  obtain ⟨vs, hvs, hsure⟩ := sure_ofOption.mp (sure_bind_good.mp hsure)
  obtain ⟨v, hv, hvs⟩ := Option.bind_eq_some_iff.mp hvs
  have hx : x ∉ components := fun hx => (hclear x v (hN x v hv)).2 (Or.inl (Or.inl hx))
  have hsub : ∀ σ : Env, M.Sub σ → M.Sub (σ.sets components vs) :=
    fun σ => hclear.sub_sets fun y hy => Or.inr (Or.inl (Or.inl hy))
  refine hss ρ t v vs r (hM x v (hN x v hv)) hx hvs ?_
  refine hr hheld (N.sets components vs) (M.sets components vs) _ t hN.sets hM.sets ?_ ?_
  · refine (hclear.mono (Nat.le_refl _) ?_).sets fun y hy => ⟨hbelow y (Or.inl hy), ?_⟩
    · exact Set.union_subset_union_left B Set.subset_union_right
    · exact fun h => h.elim (Set.disjoint_left.mp hdisj hy) (Set.disjoint_left.mp hdisjB.1 hy)
  · exact hsure.mono fun o t' ho => ho.mono (fun _ _ => hk.up (hsub M (.refl M)))
      fun _ _ => hh.up (hsub M (.refl M))

/-! ## Declarations -/

/-- Declarations in front of code for `ev`. -/
def SoundDecs (G : Goal) (decs : List (Var × DirectExp)) : Prop :=
  ∀ ⦃h s K H⦄ ⦃C : Set Var⦄ ⦃body : Gen Res⦄ ⦃ev : Env → Effect Event Val Val⦄,
    (∀ x ∈ bindersDecs decs, x.id < s.supply) → Disjoint (bindersDecs decs) C →
    (∀ {M M' : Env} {v t}, M.Sub M' → K M v t → K M' v t) → G.Handles h s H →
    (Makes body s fun r s' => G.Held s' → G.Code ev s.supply C K H r) →
      Makes (loopDecs decs h body) s fun r s' => G.Held s' →
        G.Code (fun N => evalDecs G.world decs N ev) s.supply (bindersDecs decs ∪ C) K H r

theorem soundDecs_nil : G.SoundDecs [] := by
  intro h s K H C body ev _ _ _ _ hbody
  exact hbody.mono fun r s' _ hr hheld =>
    (hr hheld).mono (Nat.le_refl _) Set.subset_union_right

theorem soundDecs_cons {x : Var} {e : DirectExp} {decs : List (Var × DirectExp)} (he : G.Sound e)
    (hdecs : G.SoundDecs decs) (hx : x ∉ bindersDecs decs) : G.SoundDecs ((x, e) :: decs) := by
  intro h s K H C body ev hbelow hdisjC hup hh hbody
  simp only [bindersDecs, Set.disjoint_union_left, Set.disjoint_singleton_left] at hdisjC
  refine (hdecs (K := K) (fun y hy => hbelow y (Or.inr (Or.inr hy))) hdisjC.2.2 hup hh hbody).bind
    fun r s₁ hs₁ hr => ?_
  have haccepts : G.Accepts (.bind ⟨x, r.statements, r.transfer⟩) s₁ ∅ Set.univ
      (Kept s.supply ({x} ∪ bindersDecs decs ∪ C)
        (G.Rest (fun N v => evalDecs G.world decs (N.set x v) ev) K H)) := by
    refine .bind_of Kept.up (Kept.ground hs₁.1) fun hheld M ρ t v hM hK => ?_
    obtain ⟨N, M₀, hN, hM₀, hclear, hrest⟩ := hK
    have hxM : M₀ x = none := Option.eq_none_iff_forall_ne_some.mpr fun w hw =>
      (hclear x w hw).2 (Or.inl (Or.inl rfl))
    refine hr hheld (N.set x v) (M₀.set x v) _ t hN.set (hM₀.trans hM).set ?_ ?_
    · refine (hclear.mono (Nat.le_refl _) ?_).set (hbelow x (Or.inr (Or.inl rfl))) ?_
      · exact Set.union_subset_union_left C Set.subset_union_right
      · exact fun h => h.elim hx hdisjC.2.1
    · exact hrest.mono fun o t' ho => ho.mono (fun _ _ => hup ((Env.Sub.refl M₀).set_right hxM))
        fun _ _ => hh.up ((Env.Sub.refl M₀).set_right hxM)
  refine (he (fun y hy => Nat.lt_of_lt_of_le (hbelow y (Or.inl hy)) hs₁.1) haccepts
    (hh.of_extends hs₁) (Set.subset_univ _) (Set.disjoint_empty _)).mono
    fun r' s₂ _ hr' hheld => code_bind ((hr' hheld).mono hs₁.1 subset_rfl) ?_ ?_
  · rw [Set.union_empty]
    exact Set.subset_union_left.trans Set.subset_union_left
  · exact Set.union_subset_union_left C Set.subset_union_right

theorem sound_lett {decs : List (Var × DirectExp)} {body : DirectExp} (hdecs : G.SoundDecs decs)
    (hbody : G.Sound body) (hdisj : Disjoint (bindersDecs decs) body.binders) :
    G.Sound (lett decs body) := by
  intro h k s B T K H hbelow hk hh hT hdisjB
  simp only [binders, Set.disjoint_union_left] at hdisjB
  refine (hdecs (K := K) (fun x hx => hbelow x (Or.inl hx))
    (Set.disjoint_union_right.mpr ⟨hdisj, hdisjB.1⟩) hk.up hh
    (hbody (fun x hx => hbelow x (Or.inr hx)) hk hh hT hdisjB.2)).mono fun r s' _ hr hheld => ?_
  have hcode := hr hheld
  rw [← Set.union_assoc] at hcode
  exact hcode

/-! ## Handlers -/

theorem sound_handle {tried handler : DirectExp} {catch_ : Var × Ty} {ty : Ty}
    (htried : G.Sound tried) (hhandler : G.Sound handler)
    (hx : catch_.1 ∉ handler.binders) : G.Sound (handle tried catch_ handler ty) := by
  intro h k s B T K H hbelow hk hh hT _
  refine (makes_reify hk (hT rfl)).bind fun l s₁ hs₁ hl => ?_
  have hs₁' := hs₁.trans s₁.extends_succ
  refine makes_block (m := fun _ => loop handler h (.goto l)) (f := fun hl => loop tried (.handle hl)
    (.goto l)) (hhandler (fun x hx => Nat.lt_of_lt_of_le (hbelow x (Or.inr (Or.inr hx))) hs₁'.1)
    (hk.goto hs₁' (hl.of_extends s₁.extends_succ)) (hh.of_extends hs₁') (Set.subset_univ _)
    (Set.disjoint_empty _)) fun r s₂ hs₂ hr hs₃ => ?_
  have hhandles : G.Handles (.handle ⟨s₁.supply⟩)
      { s₂ with blocks := ⟨[catch_], ⟨s₁.supply⟩, r.statements, r.transfer⟩ :: s₂.blocks }
      (Kept s.supply ({catch_.1} ∪ handler.binders)
        (G.Rest (fun N v => handler.eval G.world (N.set catch_.1 v)) K H)) := by
    refine ⟨by simp, Kept.up, fun hheld M ρ t v hM hH => ?_⟩
    obtain ⟨N, M₀, hN, hM₀, hclear, hrest⟩ := hH
    have hxM : M₀.Sub (M₀.set catch_.1 v) := (Env.Sub.refl M₀).set_right <|
      Option.eq_none_iff_forall_ne_some.mpr fun w hw => (hclear _ w hw).2 (Or.inl rfl)
    refine ⟨_, hheld.of_cons.1, rfl, ?_⟩
    refine hr hheld.of_cons.2 (N.set catch_.1 v) (M₀.set catch_.1 v) _ t hN.set (hM₀.trans hM).set
      (((hclear.mono (Nat.le_refl _) Set.subset_union_right).set
        (hbelow _ (Or.inr (Or.inl rfl))) hx).mono hs₁'.1 (by simp)) ?_
    exact hrest.mono fun o t' ho => ho.mono (fun _ _ => hk.up hxM) fun _ _ => hh.up hxM
  refine (htried (fun x hx => Nat.lt_of_lt_of_le (hbelow x (Or.inl hx)) (hs₁.trans hs₃).1)
    (hk.goto (hs₁.trans hs₃) (hl.of_extends hs₃)) hhandles (Set.subset_univ _)
    (Set.disjoint_empty _)).mono fun r' s₄ _ hr' hheld N M ρ t hN hM hclear hsure => ?_
  refine hr' hheld N M ρ t hN hM (hclear.mono (hs₁.trans hs₃).1 ?_)
    ((Effect.sure_handle.mp hsure).mono fun o t' ho => ?_)
  · rw [Set.union_empty]
    exact Set.subset_union_left.trans Set.subset_union_left
  · cases o with
    | raised v =>
      exact ⟨N, M, hN, .refl M, hclear.mono (Nat.le_refl _)
        (Set.subset_union_right.trans Set.subset_union_left), ho⟩
    | value | bug | gone | wrong => exact ho

/-! ## Cases -/

/-- A case has somewhere to go, and going there reaches the goal. -/
def Taken (G : Goal) (target : Option (Label × List Val)) (ρ : Env) (t : Trace) : Prop :=
  ∃ l vs, target = some (l, vs) ∧ G.Enters ρ t l vs

/-- The block of a body does what the body does, with the formals of the block bound. -/
theorem makes_body {e : DirectExp} (args : List (Var × Ty)) (he : G.Sound e)
    (hbelow : ∀ x ∈ e.binders, x.id < s.supply) (hargs : ∀ x ∈ args.map Prod.fst, x.id < s.supply)
    (hdisj : Disjoint {x | x ∈ args.map Prod.fst} e.binders)
    (hk : G.Accepts k s ∅ Set.univ K) (hh : G.Handles h s H) :
    Makes (do let r ← loop e h k; newBlock args r) s fun l s' => G.Held s' →
      ∀ (N M ρ : Env) t vs, N.Sub M → M.Sub ρ →
        Clear M s.supply ({x | x ∈ args.map Prod.fst} ∪ e.binders) → args.length = vs.length →
        (e.eval G.world (N.sets (args.map Prod.fst) vs)).Sure t (G.Good (K M) (H M)) →
          G.Enters ρ t l vs := by
  refine (he hbelow hk hh (Set.subset_univ _) (Set.disjoint_empty _)).bind
    fun r s' _ hr => makes_newBlock fun hheld N M ρ t vs hN hM hclear hvs hsure => ?_
  have hsub : M.Sub (M.sets (args.map Prod.fst) vs) :=
    hclear.sub_sets (fun x hx => Or.inr (Or.inl hx)) (.refl M)
  refine ⟨_, hheld.of_cons.1, hvs, ?_⟩
  refine hr (Held.of_cons (s := s') hheld).2 (N.sets _ vs) (M.sets _ vs) _ t hN.sets hM.sets ?_ ?_
  · rw [Set.union_empty]
    exact (hclear.mono (Nat.le_refl _) Set.subset_union_right).sets fun x hx =>
      ⟨hargs x hx, Set.disjoint_left.mp hdisj hx⟩
  · exact hsure.mono fun o t' ho => ho.mono (fun _ _ => hk.up hsub) fun _ _ => hh.up hsub

/-- The default of a case. -/
def SoundOption (G : Goal) (default : Option DirectExp) : Prop :=
  ∀ ⦃h s l K H⦄, (∀ x ∈ bindersOption default, x.id < s.supply) →
    G.Accepts (.goto l) s ∅ Set.univ K → G.Handles h s H →
      Makes (loopDefault default h (.goto l)) s fun l s' => G.Held s' →
        ∀ (N M ρ : Env) t, N.Sub M → M.Sub ρ → Clear M s.supply (bindersOption default) →
          (evalOption G.world default N).Sure t (G.Good (K M) (H M)) →
            G.Taken (l.map (·, [])) ρ t

theorem soundOption_none : G.SoundOption none := by
  intro h s l K H _ _ _
  exact makes_pure fun _ N M ρ t _ _ _ hsure => (Effect.sure_stop.mp hsure).elim

theorem soundOption_some {e : DirectExp} (he : G.Sound e) : G.SoundOption (some e) := by
  intro h s l K H hbelow hl hh
  have hbody := makes_body [] he hbelow (by simp) (by simp) hl hh
  rw [loopDefault, ← bind_assoc]
  refine hbody.bind fun l' s' _ hl' => makes_pure fun hheld N M ρ t hN hM hclear hsure => ?_
  exact ⟨l', [], rfl, hl' hheld N M ρ t [] hN hM
    (hclear.mono (Nat.le_refl _) (by simp [bindersOption])) rfl hsure⟩

/-- The arms of a case on constructors. -/
def SoundConArms (G : Goal) (cs : List (Con × List (Var × Ty) × DirectExp)) : Prop :=
  ∀ ⦃h s l K H⦄, (∀ x ∈ bindersConArms cs, x.id < s.supply) →
    G.Accepts (.goto l) s ∅ Set.univ K → G.Handles h s H →
      Makes (loopConArms cs h (.goto l)) s fun ls s' => G.Held s' →
        ∀ (N M ρ : Env) t v (default : Option (Label × List Val)) (ev : Effect Event Val Val),
          N.Sub M → M.Sub ρ → Clear M s.supply (bindersConArms cs) →
          (ev.Sure t (G.Good (K M) (H M)) → G.Taken default ρ t) →
          (evalConArms G.world v N ev cs).Sure t (G.Good (K M) (H M)) →
            G.Taken ((conArm v ls).or default) ρ t

theorem soundConArms_nil : G.SoundConArms [] := by
  intro h s l K H _ _ _
  refine makes_pure fun _ N M ρ t v default ev _ _ _ hdefault hsure => ?_
  rw [show (conArm v ([] : List (Con × Label))).or default = default by cases v <;> simp [conArm]]
  exact hdefault hsure

theorem soundConArms_cons {con : Con} {args : List (Var × Ty)} {e : DirectExp}
    {cs : List (Con × List (Var × Ty) × DirectExp)} (he : G.Sound e) (hcs : G.SoundConArms cs)
    (hdisj : Disjoint {x | x ∈ args.map Prod.fst} e.binders) :
    G.SoundConArms ((con, args, e) :: cs) := by
  intro h s l K H hbelow hl hh
  rw [loopConArms, ← bind_assoc]
  refine (makes_body args he (fun x hx => hbelow x (Or.inl (Or.inr hx)))
    (fun x hx => hbelow x (Or.inl (Or.inl hx))) hdisj hl hh).bind fun l₁ s₁ hs₁ hl₁ => ?_
  refine (hcs (fun x hx => Nat.lt_of_lt_of_le (hbelow x (Or.inr hx)) hs₁.1) (hl.of_extends hs₁)
    (hh.of_extends hs₁)).bind fun ls s₂ hs₂ hls => makes_pure ?_
  intro hheld N M ρ t v default ev hN hM hclear hdefault hsure
  cases v with
  | con con' vs =>
    rw [evalConArms] at hsure
    by_cases hcon : con = con'
    · rw [if_pos hcon] at hsure
      by_cases hlength : args.length = vs.length
      · rw [if_pos hlength] at hsure
        exact ⟨l₁, vs, by simp [conArm, hcon], hl₁ (hheld.of_extends hs₂) N M ρ t vs hN hM
          (hclear.mono (Nat.le_refl _) Set.subset_union_left) hlength hsure⟩
      · rw [if_neg hlength, Effect.sure_stop] at hsure
        exact hsure.elim
    · rw [if_neg hcon] at hsure
      have htaken := hls hheld N M ρ t _ default ev hN hM (hclear.mono hs₁.1 Set.subset_union_right)
        hdefault hsure
      simpa [conArm, List.find?_cons, hcon] using htaken
  | const | other | tuple =>
    rw [evalConArms, Effect.sure_stop] at hsure
    · exact hsure.elim
    · simp

/-- The arms of a case on words. -/
def SoundWordArms (G : Goal) (cs : List (ℕ × DirectExp)) : Prop :=
  ∀ ⦃h s l K H⦄, (∀ x ∈ bindersWordArms cs, x.id < s.supply) →
    G.Accepts (.goto l) s ∅ Set.univ K → G.Handles h s H →
      Makes (loopWordArms cs h (.goto l)) s fun ls s' => G.Held s' →
        ∀ (N M ρ : Env) t v (default : Option Label) (ev : Effect Event Val Val),
          N.Sub M → M.Sub ρ → Clear M s.supply (bindersWordArms cs) →
          (ev.Sure t (G.Good (K M) (H M)) → G.Taken (default.map (·, [])) ρ t) →
          (evalWordArms G.world v N ev cs).Sure t (G.Good (K M) (H M)) →
            G.Taken (((wordArm v ls).or default).map (·, [])) ρ t

theorem soundWordArms_nil : G.SoundWordArms [] := by
  intro h s l K H _ _ _
  refine makes_pure fun _ N M ρ t v default ev _ _ _ hdefault hsure => ?_
  have hnone : wordArm v ([] : List (ℕ × Label)) = none := by
    unfold wordArm
    split <;> rfl
  rw [hnone, Option.none_or]
  exact hdefault hsure

theorem soundWordArms_cons {w : ℕ} {e : DirectExp} {cs : List (ℕ × DirectExp)} (he : G.Sound e)
    (hcs : G.SoundWordArms cs) : G.SoundWordArms ((w, e) :: cs) := by
  intro h s l K H hbelow hl hh
  rw [loopWordArms, ← bind_assoc]
  refine (makes_body [] he (fun x hx => hbelow x (Or.inl hx)) (by simp) (by simp) hl hh).bind
    fun l₁ s₁ hs₁ hl₁ => ?_
  refine (hcs (fun x hx => Nat.lt_of_lt_of_le (hbelow x (Or.inr hx)) hs₁.1) (hl.of_extends hs₁)
    (hh.of_extends hs₁)).bind fun ls s₂ hs₂ hls => makes_pure ?_
  intro hheld N M ρ t v default ev hN hM hclear hdefault hsure
  obtain ⟨size, w', rfl⟩ | hv : (∃ size w', v = .const (.word size w')) ∨
      evalWordArms G.world v N ev ((w, e) :: cs) = .stop .wrong := by
    match v with
    | .const (.word size w') => exact Or.inl ⟨size, w', rfl⟩
    | .con .. | .other .. | .tuple .. => exact Or.inr (by rw [evalWordArms]; simp)
    | .const (.cSymbol ..) | .const (.intInf ..) | .const .null | .const (.real ..)
    | .const (.wordVector ..) => exact Or.inr (by rw [evalWordArms]; simp)
  · rw [evalWordArms] at hsure
    by_cases hw : w = w'
    · rw [if_pos hw] at hsure
      exact ⟨l₁, [], by simp [wordArm, hw], hl₁ (hheld.of_extends hs₂) N M ρ t [] hN hM
        (hclear.mono (Nat.le_refl _) (by simp [bindersWordArms])) rfl hsure⟩
    · rw [if_neg hw] at hsure
      have htaken := hls hheld N M ρ t _ default ev hN hM (hclear.mono hs₁.1 Set.subset_union_right)
        hdefault hsure
      simpa [wordArm, List.find?_cons, hw] using htaken
  · rw [hv, Effect.sure_stop] at hsure
    exact hsure.elim

/-- The arms of a case. -/
def SoundArms (G : Goal) (cases : Arms) : Prop :=
  ∀ ⦃h s l K H⦄, (∀ x ∈ cases.binders, x.id < s.supply) →
    G.Accepts (.goto l) s ∅ Set.univ K → G.Handles h s H →
      Makes (loopArms cases h (.goto l)) s fun cs s' => G.Held s' →
        ∀ (N M ρ : Env) t v (default : Option Label) (ev : Effect Event Val Val),
          N.Sub M → M.Sub ρ → Clear M s.supply cases.binders →
          (ev.Sure t (G.Good (K M) (H M)) → G.Taken (default.map (·, [])) ρ t) →
          (cases.eval G.world v N ev).Sure t (G.Good (K M) (H M)) →
            G.Taken (cs.target v default) ρ t

theorem soundArms_con {cs : List (Con × List (Var × Ty) × DirectExp)} (hcs : G.SoundConArms cs) :
    G.SoundArms (.con cs) := by
  intro h s l K H hbelow hl hh
  refine (hcs hbelow hl hh).bind fun ls s' _ hls => makes_pure ?_
  exact fun hheld N M ρ t v default ev => hls hheld N M ρ t v (default.map (·, [])) ev

theorem soundArms_word {size : ℕ} {cs : List (ℕ × DirectExp)} (hcs : G.SoundWordArms cs) :
    G.SoundArms (.word size cs) := by
  intro h s l K H hbelow hl hh
  exact (hcs hbelow hl hh).bind fun ls s' _ hls => makes_pure hls

theorem sound_case {cases : Arms} {default : Option DirectExp} {test : DirectExp} {ty : Ty}
    (hcases : G.SoundArms cases) (hdefault : G.SoundOption default) (htest : G.Sound test)
    (hdisj : Disjoint test.binders (cases.binders ∪ bindersOption default)) :
    G.Sound (case cases default test ty) := by
  intro h k s B T K H hbelow hk hh hT _
  refine (makes_reify hk (hT rfl)).bind fun l s₁ hs₁ hl => ?_
  have hbelow' : ∀ x ∈ cases.binders ∪ bindersOption default, x.id < s₁.supply :=
    fun x hx => Nat.lt_of_lt_of_le (hbelow x (Or.inr hx)) hs₁.1
  refine (htest (fun x hx => Nat.lt_of_lt_of_le (hbelow x (Or.inl hx)) hs₁.1) (Accepts.receiveVar
    (f := fun N v => cases.eval G.world v N (evalOption G.world default N)) (K := K) (T := Set.univ)
    (.refl s₁) hbelow' fun x s₂ hs₂ => ?_) (hh.of_extends hs₁) (Set.subset_univ _) hdisj).mono
    fun r s' _ hr hheld => (code_bind (hr hheld) subset_rfl Set.subset_union_right).mono hs₁.1
      Set.subset_union_left
  have hgoto := hk.goto hs₁ hl
  refine (hdefault (fun x hx => Nat.lt_of_lt_of_le (hbelow' x (Or.inr hx)) hs₂.1)
    (hgoto.of_extends hs₂) (hh.of_extends (hs₁.trans hs₂))).bind fun l' s₃ hs₃ hl' => ?_
  refine (hcases (fun x hx => Nat.lt_of_lt_of_le (hbelow' x (Or.inl hx)) (hs₂.trans hs₃).1)
    (hgoto.of_extends (hs₂.trans hs₃)) (hh.of_extends ((hs₁.trans hs₂).trans hs₃))).bind
    fun cs s₄ hs₄ hcs => makes_pure fun hheld N M ρ t v hN hM hclear _ _ hv hsure => ?_
  have htaken : G.Taken (cs.target v l') ρ t := by
    refine hcs hheld N M ρ t v l' (evalOption G.world default N) hN hM
      (hclear.mono (hs₂.trans hs₃).1 Set.subset_union_left) (fun hdef => ?_) hsure
    exact hl' (hheld.of_extends hs₄) N M ρ t hN hM (hclear.mono hs₂.1 Set.subset_union_right) hdef
  obtain ⟨l'', vs, htarget, henters⟩ := htaken
  refine leads_transfer ?_
  simpa [Transfer.eval, hv, htarget, Goes] using henters

/-! ## All expressions -/

mutual

/-- **The code of a well-formed expression is code for its evaluation.** -/
theorem sound : ∀ e : DirectExp, e.WellFormed → G.Sound e
  | bug, _ => sound_bug
  | call _ args _, hwf => sound_call (soundList args hwf)
  | case cases default test _, hwf =>
    sound_case (soundArms cases hwf.2.1) (soundOption default hwf.2.2.1) (sound test hwf.1) hwf.2.2.2
  | conApp _ args _ _, hwf => sound_conApp (soundList args hwf)
  | const _, _ => sound_const
  | detuple body _ e, hwf =>
    sound_detuple (sound e hwf.1) (fun xs => sound (body xs) (hwf.2.1 xs)) hwf.2.2.1 hwf.2.2.2
  | detupleBind body _ _ _, hwf => sound_detupleBind (sound body hwf.1) hwf.2.1 hwf.2.2
  | handle tried _ handler _, hwf =>
    sound_handle (sound tried hwf.1) (sound handler hwf.2.1) hwf.2.2
  | lett decs body, hwf => sound_lett (soundDecs decs hwf.1) (sound body hwf.2.1) hwf.2.2
  | name e f, hwf => sound_name (sound e hwf.1) (fun x => sound (f x) (hwf.2.1 x)) hwf.2.2
  | primApp _ _ _ args _, hwf => sound_primApp (soundList args hwf)
  | profile _, _ => sound_profile
  | raise e, hwf => sound_raise (sound e hwf)
  | runtime args _ _, hwf => sound_runtime (soundList args hwf.1) hwf.2
  | select e _ _, hwf => sound_select (sound e hwf)
  | seq e₁ e₂, hwf => sound_seq (sound e₁ hwf.1) (sound e₂ hwf.2.1) hwf.2.2
  | tuple exps _ _, hwf => sound_tuple (soundList exps hwf.1) hwf.2
  | var _ _, _ => sound_var

theorem soundList : ∀ es : List DirectExp, WellFormedList es → G.SoundList es
  | [], _ => soundList_nil
  | e :: es, hwf => soundList_cons (sound e hwf.1) (soundList es hwf.2.1) hwf.2.2

theorem soundOption : ∀ o : Option DirectExp, WellFormedOption o → G.SoundOption o
  | none, _ => soundOption_none
  | some e, hwf => soundOption_some (sound e hwf)

theorem soundDecs : ∀ decs : List (Var × DirectExp), WellFormedDecs decs → G.SoundDecs decs
  | [], _ => soundDecs_nil
  | (_, e) :: decs, hwf => soundDecs_cons (sound e hwf.1) (soundDecs decs hwf.2.1) hwf.2.2

theorem soundArms : ∀ cases : Arms, cases.WellFormed → G.SoundArms cases
  | .con cs, hwf => soundArms_con (soundConArms cs hwf)
  | .word _ cs, hwf => soundArms_word (soundWordArms cs hwf)

theorem soundConArms : ∀ cs : List (Con × List (Var × Ty) × DirectExp), WellFormedConArms cs →
    G.SoundConArms cs
  | [], _ => soundConArms_nil
  | (_, _, e) :: cs, hwf => soundConArms_cons (sound e hwf.1) (soundConArms cs hwf.2.1) hwf.2.2

theorem soundWordArms : ∀ cs : List (ℕ × DirectExp), WellFormedWordArms cs → G.SoundWordArms cs
  | [], _ => soundWordArms_nil
  | (_, e) :: cs, hwf => soundWordArms_cons (sound e hwf.1) (soundWordArms cs hwf.2)

end

end Goal

/-! ## The graph of an expression -/

/-- The block a label names among the blocks made. -/
def blockOf (blocks : List Block) (l : Label) : Option Block := blocks.find? (·.label = l)

theorem blockOf_of_nodup {blocks : List Block} (h : (blocks.map Block.label).Nodup) :
    ∀ b ∈ blocks, blockOf blocks b.label = some b :=
  Fold.find?_key h

/-- A continuation that returns from the function. -/
theorem Goal.accepts_ret {G : Goal} (s : State) :
    G.Accepts .ret s ∅ Set.univ fun _ v t => G.post (.value v) t :=
  .ofVar (by simp) (fun _ h => h)
    (fun {_ _ _} h => ⟨fun _ => none, fun _ _ h => by simp at h, fun _ _ h => by simp at h, h⟩)
    (fun _ => rfl) (fun _ _ => rfl) fun _ _ x _ _ => makes_pure fun _ M ρ t v _ _ _ hv hK =>
      Goal.leads_transfer (by simpa [Transfer.eval, Env.all, hv, Goal.Goes] using hK)

/-- A handler that leaves the function. -/
theorem Goal.handles_caller {G : Goal} (s : State) :
    G.Handles .caller s fun _ v t => G.post (.raised v) t where
  live := by simp
  up _ h := h
  goes _ _ _ _ _ _ h := h

/-- The graph of an expression, for any goal that evaluation is sure to reach. -/
theorem makes_graph (G : Goal) (e : DirectExp) (hwf : e.WellFormed) {s : State}
    (hbelow : ∀ x ∈ e.binders, x.id < s.supply) :
    Makes (do let r ← loop e .caller .ret; newBlock [] r) s fun l s' => G.Held s' →
      ∀ (ρ : Env) t, Goal.Clear ρ s.supply e.binders →
        (e.eval G.world ρ).Sure t (G.Good (fun v => G.post (.value v)) fun v => G.post (.raised v)) →
          G.Enters ρ t l [] := by
  refine (Goal.makes_body (G := G) [] (Goal.sound e hwf) hbelow (by simp) (by simp)
    (Goal.accepts_ret s) (Goal.handles_caller s)).mono fun l s' _ hl hheld ρ t hclear hsure => ?_
  exact hl hheld ρ ρ ρ t [] (.refl ρ) (.refl ρ) (hclear.mono (Nat.le_refl _) (by simp)) rfl hsure

/-- **`linearize` keeps what an expression means.**  It makes a graph of any well-formed expression; if
no way of naming values makes evaluation go wrong, then the graph, run from its start, does in one way
only what evaluation does in one of its ways: the same events in the same order, with the same end. -/
theorem linearize_evaluates (e : DirectExp) (hwf : e.WellFormed) (supply : Supply)
    (hbelow : ∀ x ∈ e.binders, x.id < supply) :
    ∃ l blocks supply', linearize e .caller supply = some ((l, blocks), supply') ∧
      ∀ (W : World) (ρ : Env) (t : Trace), Goal.Clear ρ supply e.binders →
        (∀ t', (.wrong, t') ∉ e.eval W ρ t) →
        ∃ r t', RunsFrom W (blockOf blocks) l ρ t r t' ∧ (r, t') ∈ e.eval W ρ t ∧
          ∀ r' t'', RunsFrom W (blockOf blocks) l ρ t r' t'' → r' = r ∧ t'' = t' := by
  have hmakes := fun G => makes_graph G e hwf (s := ⟨supply, []⟩) hbelow
  obtain ⟨l, s, hm, ⟨-, new, hnew, hnodup, -⟩, -⟩ :=
    hmakes ⟨⟨fun _ _ _ => none, fun _ _ _ _ _ => none, fun _ _ _ => none⟩, fun _ => none,
      fun _ _ => True⟩
  refine ⟨l, s.blocks, s.supply, ?_, fun W ρ t hclear hwrong => ?_⟩
  · change Option.bind _ _ = _
    rw [hm]
    rfl
  -- the goal is to end in one of the ways evaluation does, over the blocks that were made
  obtain ⟨l', s', hm', -, hgoal⟩ := hmakes ⟨W, blockOf s.blocks, fun r t' => (r, t') ∈ e.eval W ρ t⟩
  obtain ⟨rfl, rfl⟩ : l = l' ∧ s = s' := Prod.mk.inj (Option.some.inj (hm.symm.trans hm'))
  have hheld : ∀ b ∈ s.blocks, blockOf s.blocks b.label = some b := by
    simp only [List.append_nil] at hnew
    exact blockOf_of_nodup (hnew ▸ hnodup)
  obtain ⟨b, hb, hargs, r, t', hruns, hr⟩ := hgoal hheld ρ t hclear fun r t' hr => by
    cases r with
    | wrong => exact hwrong t' hr
    | value | raised | bug | gone => exact hr
  have hfrom : RunsFrom W (blockOf s.blocks) l ρ t r t' :=
    ⟨b, hb, List.length_eq_zero_iff.mp hargs, by
      rwa [List.length_eq_zero_iff.mp hargs] at hruns⟩
  exact ⟨r, t', hfrom, hr, fun r' t'' h => h.unique hfrom⟩

/-- `raise x handle y => y`. -/
def raised : DirectExp :=
  .handle (.raise (.var ⟨0⟩ .cpointer)) (⟨1⟩, .cpointer) (.var ⟨1⟩ .cpointer) .cpointer

theorem raised_eval (W : World) : (raised.eval W fun x => if x = ⟨0⟩ then some .unit else none).Sure []
    fun r t => r = .value .unit ∧ t = [] := by
  simp [raised, eval, Effect.sure_handle, Effect.sure_bind, Effect.orElse, Effect.andThen, ofOption,
    Env.set]

/-- A raise inside the tried part reaches the handler. -/
theorem raised_linearize : ∃ l blocks supply', linearize raised .caller 2 = some ((l, blocks), supply') ∧
    ∀ W : World, RunsFrom W (blockOf blocks) l (fun x => if x = ⟨0⟩ then some .unit else none) []
      (.value .unit) [] := by
  obtain ⟨l, blocks, supply', hlin, hruns⟩ := linearize_evaluates raised
    (by simp [raised, WellFormed, binders]) 2 (by simp [raised, binders])
  refine ⟨l, blocks, supply', hlin, fun W => ?_⟩
  obtain ⟨r, t', h, hr, -⟩ := hruns W (fun x => if x = ⟨0⟩ then some .unit else none) []
    (by intro x v; simp [raised, binders]; rintro rfl; simp)
    (fun t' h => absurd (raised_eval W _ _ h).1 (by simp))
  obtain ⟨rfl, rfl⟩ := raised_eval W r t' hr
  exact h

end MLton.Ssa.DirectExp
