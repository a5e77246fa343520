import MLton.Ssa.FreshNames
import MLton.Ssa.HeaderSplit
import MLton.Ssa.Stepwise

/-!
# Ssa/HeaderSplitRuns — functions whose headers are split do the same

An activation of the new function is at the body of the block where the old one is, and has the same values for the
old variables.  It goes through the outer block with one step more; and past it, where the goto is redirected, with
the dropped formals as they are.
-/

namespace MLton.Ssa.HeaderSplit

open MLton.Effects MLton.Dominance MLton.Simulation

/-- The label of the block that has the body. -/
def Plan.body (P : Plan) (l : Label) : Label := (P.inner l).getD l

/-- The second function is made of the first one by a sound plan. -/
structure Splits (n : ℕ) (globals : List Var) (P : Plan) (f f' : Function) : Prop where
  sound : ∃ lo hi, n ≤ lo ∧ P.Sound lo hi f
  below : Below n f
  makes : Makes P f f'
  wellScoped : f.Scoped globals

/-- Activations at the same point, with the same values for the old variables. -/
structure Alike (n : ℕ) (globals : List Var) (P : Plan) (fr fr' : Frame) : Prop where
  splits : Splits n globals P fr.func fr'.func
  label : fr'.label = P.body fr.label
  index : fr'.index = fr.index
  env : ∀ x : Var, x.id < n → fr'.env x = fr.env x

theorem Below.mono {n lo : ℕ} {f : Function} (h : Below n f) (hle : n ≤ lo) : Below lo f where
  labels l hl := (h.labels l hl).trans_le hle
  args x hx := (h.args x hx).trans_le hle
  formals b hb x hx := (h.formals b hb x hx).trans_le hle
  binders b hb s hs x hx := (h.binders b hb s hs x hx).trans_le hle
  uses b hb s hs x hx := (h.uses b hb s hs x hx).trans_le hle
  transfers b hb x hx := (h.transfers b hb x hx).trans_le hle

namespace Splits

variable {n : ℕ} {globals : List Var} {P : Plan} {f f' : Function} {l m : Label} {b c : Block}

variable (h : Splits n globals P f f')

include h

theorem block? (hplace : Place P f l b m c) : f'.block? m = some c := by
  obtain ⟨lo, hi, hle, hP⟩ := h.sound
  exact (block?_iff hP (h.below.mono hle) h.makes).mpr ⟨l, b, hplace⟩

/-- The body of a block is the block of the new function. -/
theorem exists_body (hl : l ∈ P.labels) (hb : f.block? l = some b) :
    ∃ c, f'.block? (P.body l) = some c ∧ c.statements = b.statements ∧ c.transfer = P.transfer f b := by
  cases hinner : P.inner l with
  | none =>
    rw [Plan.body, hinner]
    exact ⟨_, h.block? (.whole hl hb hinner), rfl, rfl⟩
  | some l' =>
    rw [Plan.body, hinner]
    exact ⟨_, h.block? (.inner hl hb hinner), rfl, rfl⟩

theorem body_start : P.body f.start = f.start := by
  obtain ⟨lo, hi, -, hP⟩ := h.sound
  rw [Plan.body, inner_start hP h.wellScoped]
  rfl

/-- Control stays at the labels of the plan. -/
theorem mem_labels {pt : Point} (hreach : f.Reachable pt) : pt.1 ∈ P.labels := by
  obtain ⟨lo, hi, -, hP⟩ := h.sound
  induction hreach with
  | refl => exact hP.start
  | tail _ hmove ih =>
    cases hmove with
    | statement => exact ih
    | transfer hb hl => exact hP.closed _ ih _ (Function.succs_of_block? hb ▸ hl)

/-! ## Going to a block -/

section Enter

variable {W : World} {G : Env} {p' : Program} {vs : List Val} {x : Var}

omit h in
theorem mem_zip_map {g : Var → Var} {xs : List Var} (hx : x ∈ xs) : (g x, x) ∈ (xs.map g).zip xs := by
  induction xs with
  | nil => cases hx
  | cons y xs ih =>
    obtain rfl | hx := List.mem_cons.mp hx
    · exact List.mem_cons_self ..
    · exact List.mem_cons_of_mem _ (ih hx)

omit h in
theorem exists_mem_zip {xs : List Var} (hlen : xs.length = vs.length) (hx : x ∈ xs) : ∃ v, (x, v) ∈ xs.zip vs := by
  have hfst : (xs.zip vs).map Prod.fst = xs := List.map_fst_zip hlen.le
  rw [← hfst] at hx
  obtain ⟨⟨y, v⟩, hv, rfl⟩ := List.mem_map.mp hx
  exact ⟨v, hv⟩

/-- **Through the outer block**: the formals that vary get the values that the outer block has for them. -/
theorem enter_inner {l' : Label} (hl : l ∈ P.labels) (hb : f.block? l = some b) (hinner : P.inner l = some l')
    {ρ ρ' : Env} (hρ : ∀ x : Var, x.id < n → ρ' x = ρ x) (hlen : b.args.length = vs.length) :
    ∃ ρ₁ : Env, Frame.Quiet W p' G ⟨f', l, 0, ρ'.sets ((P.outerBlock b l').args.map Prod.fst) vs⟩ ⟨f', l', 0, ρ₁⟩ ∧
      ∀ x : Var, x.id < n → ρ₁ x = ρ.sets (b.args.map Prod.fst) vs x := by
  obtain ⟨lo, hi, hle, hP⟩ := h.sound
  have hbelow := h.below.mono hle
  have hnodup := h.wellScoped.formals hb
  have houter := formals_nodup hP hbelow h.wellScoped (.outer hl hb hinner)
  have hinnerNodup := formals_nodup hP hbelow h.wellScoped (.inner hl hb hinner)
  have hnames : (P.outerBlock b l').args.map Prod.fst = (b.args.map Prod.fst).map P.outer := by
    simp [Plan.outerBlock]
  have hactuals : ((P.kept b.args).map fun vt => P.fresh vt.1) = ((P.kept b.args).map Prod.fst).map P.fresh := by
    simp
  rw [hnames] at houter ⊢
  have hzip : ∀ {x v}, (x, v) ∈ (b.args.map Prod.fst).zip vs →
      ρ'.sets ((b.args.map Prod.fst).map P.outer) vs (P.outer x) = some v := by
    intro x v hv
    refine Env.sets_of_mem_zip houter ?_
    rw [List.zip_map_left]
    exact List.mem_map.mpr ⟨_, hv, rfl⟩
  have hvaries : ∀ {x}, x ∈ (P.kept b.args).map Prod.fst → P.outer x = P.fresh x := fun hx => by
    simp [Plan.outer, (mem_kept.mp hx).2]
  obtain ⟨ws, hws⟩ : ∃ ws, (ρ'.sets ((b.args.map Prod.fst).map P.outer) vs).all
      (((P.kept b.args).map Prod.fst).map P.fresh) = some ws := by
    refine Env.exists_all fun y hy => ?_
    obtain ⟨x, hx, rfl⟩ := List.mem_map.mp hy
    obtain ⟨v, hv⟩ := exists_mem_zip (by simpa using hlen) (mem_kept.mp hx).1
    exact ⟨v, hvaries hx ▸ hzip hv⟩
  refine ⟨(ρ'.sets ((b.args.map Prod.fst).map P.outer) vs).sets ((P.kept b.args).map Prod.fst) ws,
    fun stack t => State.step_goto ⟨_, h.block? (.outer hl hb hinner), rfl, rfl⟩ ?_, fun x hx => ?_⟩
  · rw [Frame.enters, hactuals, hws, Option.bind_some, Frame.enter, h.block? (.inner hl hb hinner), Option.bind_some,
      if_pos (by simpa [Plan.innerBlock] using (Env.all_length hws).symm)]
    rfl
  · by_cases hmem : x ∈ b.args.map Prod.fst
    · obtain ⟨v, hv⟩ := exists_mem_zip (by simpa using hlen) hmem
      rw [Env.sets_of_mem_zip hnodup hv]
      by_cases hd : P.dropped x = true
      · refine (Env.sets_of_notMem fun hx => ?_).trans ?_
        · exact absurd (mem_kept.mp hx).2 (by simp [hd])
        · have := hzip hv
          rwa [Plan.outer, if_pos hd] at this
      · have hkept : x ∈ (P.kept b.args).map Prod.fst := mem_kept.mpr ⟨hmem, by simpa using hd⟩
        rw [← hzip hv, hvaries hkept]
        exact Env.sets_of_args hinnerNodup hws (mem_zip_map hkept)
    · rw [Env.sets_of_notMem hmem]
      refine (Env.sets_of_notMem fun hx => hmem (mem_kept.mp hx).1).trans ((Env.sets_of_notMem fun hx' => ?_).trans (hρ x hx))
      obtain ⟨y, hy, rfl⟩ := List.mem_map.mp hx'
      by_cases hd : P.dropped y = true
      · rw [Plan.outer, if_pos hd] at hmem
        exact hmem hy
      · have hkept : y ∈ (P.kept b.args).map Prod.fst := mem_kept.mpr ⟨hy, by simpa using hd⟩
        rw [hvaries hkept] at hx
        exact hP.fresh_ne (hx.trans_le hle) ⟨l', b, hinner, hb, hkept⟩ rfl

/-- **Past the outer block**: the goto passes the formals that vary, and the dropped ones have their values. -/
theorem redirected {l₀ dst dst' : Label} {b₀ d : Block} {args : List Var} (hred : P.redirected l₀ = true)
    (hb₀ : f.block? l₀ = some b₀) (hgoto : b₀.transfer = .goto dst args) (hinner : P.inner dst = some dst')
    (hd : f.block? dst = some d) {ρ ρ' : Env} (hρ : ∀ x : Var, x.id < n → ρ' x = ρ x) (hvs : ρ.all args = some vs)
    (hlen : args.length = d.args.length) :
    (∀ x ∈ d.args.map Prod.fst, P.dropped x = true → ρ.sets (d.args.map Prod.fst) vs x = ρ x) ∧
      ∃ ws, ρ'.all (P.passed args d.args) = some ws ∧ ((P.kept d.args).map Prod.fst).length = ws.length ∧
        ∀ x : Var, x.id < n → ρ'.sets ((P.kept d.args).map Prod.fst) ws x = ρ.sets (d.args.map Prod.fst) vs x := by
  obtain ⟨lo, hi, -, hP⟩ := h.sound
  obtain rfl := Function.block?_label hb₀
  have hpass := hP.redirected hred hb₀ hgoto hinner hd
  have hnodup := h.wellScoped.formals hd
  have hkept : ((P.kept d.args).map Prod.fst).Nodup := hnodup.sublist (List.filter_sublist.map _)
  have hold : ∀ a ∈ args, ρ' a = ρ a := fun a ha =>
    hρ a (h.below.transfers b₀ (Function.block?_mem hb₀) a (by rw [hgoto]; exact ha))
  have hsnd : (args.zip d.args).map Prod.snd = d.args := List.map_snd_zip hlen.ge
  -- every formal has an argument, and a dropped one has itself
  have harg : ∀ {x}, x ∈ d.args.map Prod.fst → ∃ a vt, (a, vt) ∈ args.zip d.args ∧ vt.1 = x ∧
      (P.dropped x = true → a = x) ∧ ρ.sets (d.args.map Prod.fst) vs x = ρ a := by
    intro x hx
    obtain ⟨vt, hvt, rfl⟩ := List.mem_map.mp hx
    rw [← hsnd] at hvt
    obtain ⟨⟨a, vt⟩, hmem, rfl⟩ := List.mem_map.mp hvt
    refine ⟨a, vt, hmem, rfl, (List.forall₂_iff_zip.mp hpass).2 hmem, Env.sets_of_args hnodup hvs ?_⟩
    rw [List.zip_map_right]
    exact List.mem_map.mpr ⟨_, hmem, rfl⟩
  have hfilter : (P.kept d.args).map Prod.fst =
      ((args.zip d.args).filter fun avt => !P.dropped avt.2.1).map fun avt => avt.2.1 := by
    conv_lhs => rw [Plan.kept, ← hsnd, List.filter_map, List.map_map]
    rfl
  obtain ⟨ws, hws⟩ : ∃ ws, ρ'.all (P.passed args d.args) = some ws := by
    refine Env.exists_all fun a ha => ?_
    obtain ⟨avt, havt, rfl⟩ := List.mem_map.mp ha
    have hmem := (List.of_mem_zip (List.mem_filter.mp havt).1).1
    rw [hold _ hmem]
    exact Env.exists_of_all hvs hmem
  refine ⟨fun x hx hdrop => ?_, ws, hws, ?_, fun x hx => ?_⟩
  · obtain ⟨a, vt, -, -, ha, hval⟩ := harg hx
    rw [hval, ha hdrop]
  · rw [Env.all_length hws, hfilter, Plan.passed, List.length_map, List.length_map]
  · by_cases hmem : x ∈ d.args.map Prod.fst
    · obtain ⟨a, vt, hzip, rfl, ha, hval⟩ := harg hmem
      rw [hval, ← hold a (List.of_mem_zip hzip).1]
      by_cases hdrop : P.dropped vt.1 = true
      · rw [Env.sets_of_notMem fun hx => absurd (mem_kept.mp hx).2 (by simp [hdrop]), ha hdrop]
      · refine Env.sets_of_args hkept hws ?_
        rw [hfilter, Plan.passed, List.zip_map']
        exact List.mem_map.mpr ⟨_, List.mem_filter.mpr ⟨hzip, by simpa using hdrop⟩, rfl⟩
    · rw [Env.sets_of_notMem hmem, Env.sets_of_notMem fun hx => hmem (mem_kept.mp hx).1]
      exact hρ x hx

end Enter

end Splits

/-! ## Whole programs -/

section Programs

variable {n : ℕ} {globals : List Var} {W : World} {G : Env} {p p' : Program} {P : Plan} {S : Signatures} {τ : Types}
  {fr fr' : Frame} {f f' : Function} {b : Block} {l : Label}

theorem transfer_of_not_goto (h : b.transfer.isGoto = false) : P.transfer f b = b.transfer := by
  rw [Plan.transfer]
  split
  · next dst args hgoto =>
    rw [hgoto] at h
    cases h
  · rfl

/-- The new function has a block of the old label, with as many formals. -/
theorem Splits.exists_label (h : Splits n globals P f f') (hl : l ∈ P.labels) (hb : f.block? l = some b) :
    ∃ c, f'.block? l = some c ∧ c.args.length = b.args.length := by
  cases hinner : P.inner l with
  | none => exact ⟨_, h.block? (.whole hl hb hinner), rfl⟩
  | some l' => exact ⟨_, h.block? (.outer hl hb hinner), by simp [Plan.outerBlock]⟩

/-- Control goes on at the labels of the plan. -/
theorem Splits.mem_labels_of_transfer (h : Splits n globals P f f') (hl : l ∈ P.labels) (hb : f.block? l = some b)
    {k : Label} (hk : k ∈ b.transfer.labels) : k ∈ P.labels := by
  obtain ⟨lo, hi, -, hP⟩ := h.sound
  exact hP.closed l hl k (Function.succs_of_block? hb ▸ hk)

variable (W p' G) in
/-- **Going to a block**: the new function goes to the block of the same label, and through it to the body. -/
theorem Alike.enter (h : Alike n globals P fr fr') (hl : l ∈ P.labels) (hb : fr.func.block? l = some b)
    {vs : List Val} (hlen : b.args.length = vs.length) :
    ∃ fr₁ fr₂ fr₁', fr.enter l vs = some fr₁ ∧ fr'.enter l vs = some fr₂ ∧
      Relation.ReflTransGen (Frame.Quiet W p' G) fr₂ fr₁' ∧ Alike n globals P fr₁ fr₁' := by
  refine ⟨⟨fr.func, l, 0, fr.env.sets (b.args.map Prod.fst) vs⟩, ?_⟩
  cases hinner : P.inner l with
  | none =>
    have hc := h.splits.block? (.whole hl hb hinner)
    refine ⟨⟨fr'.func, l, 0, fr'.env.sets (b.args.map Prod.fst) vs⟩, _, by simp [Frame.enter, hb, hlen], ?_, .refl,
      h.splits, by rw [Plan.body, hinner]; rfl, rfl, fun x hx => ?_⟩
    · simp [Frame.enter, hc, Plan.whole, hlen]
    · by_cases hmem : x ∈ b.args.map Prod.fst
      · obtain ⟨v, hv⟩ := Splits.exists_mem_zip (by simpa using hlen) hmem
        have hnodup := h.splits.wellScoped.formals hb
        exact (Env.sets_of_mem_zip hnodup hv).trans (Env.sets_of_mem_zip hnodup hv).symm
      · exact (Env.sets_of_notMem hmem).trans ((h.env x hx).trans (Env.sets_of_notMem hmem).symm)
  | some l' =>
    obtain ⟨ρ₁, hquiet, hρ₁⟩ := h.splits.enter_inner hl hb hinner h.env hlen
    have hc := h.splits.block? (.outer hl hb hinner)
    refine ⟨⟨fr'.func, l, 0, fr'.env.sets ((P.outerBlock b l').args.map Prod.fst) vs⟩, ⟨fr'.func, l', 0, ρ₁⟩,
      by simp [Frame.enter, hb, hlen], ?_, .single hquiet, h.splits, by rw [Plan.body, hinner]; rfl, rfl, hρ₁⟩
    rw [Frame.enter, hc, Option.bind_some, if_pos (by simpa [Plan.outerBlock] using hlen)]

/-- A goto stays as it is, or it is redirected. -/
theorem transfer_goto {dst : Label} {args : List Var} {d : Block} (hgoto : b.transfer = .goto dst args)
    (hd : f.block? dst = some d) : P.transfer f b = .goto dst args ∨
      ∃ dst', P.redirected b.label = true ∧ P.inner dst = some dst' ∧
        P.transfer f b = .goto dst' (P.passed args d.args) := by
  rw [Plan.transfer, hgoto]
  by_cases hred : P.redirected b.label = true
  · cases hinner : P.inner dst with
    | none => exact .inl (by simp [hred, Plan.redirect, hinner])
    | some dst' => exact .inr ⟨dst', hred, rfl, by simp [hred, Plan.redirect, hinner, hd]⟩
  · exact .inl (by simp [hred])

/-- The activation of the new function is at the transfer that is made of the old one. -/
theorem Alike.at_transfer (h : Alike n globals P fr fr') (hl : fr.label ∈ P.labels)
    (hb : fr.func.block? fr.label = some b) (hnone : b.statements[fr.index]? = none) :
    fr'.At (P.transfer fr.func b) := by
  obtain ⟨c, hc, hstmts, htr⟩ := h.splits.exists_body hl hb
  exact ⟨c, h.label ▸ hc, by rw [hstmts, h.index]; exact hnone, htr⟩

variable (hscoped : p.Scoped globals)

include hscoped

/-- The arguments of a goto have values, and as many as there are formals. -/
theorem exists_args (hagree : p.Agrees S τ) (hfr : fr.Defined W globals p) {dst : Label} {args : List Var}
    (hat : fr.At (.goto dst args)) :
    ∃ d vs, fr.func.block? dst = some d ∧ fr.env.all args = some vs ∧ args.length = d.args.length := by
  obtain ⟨b, hb, hnone, hgoto⟩ := hat
  obtain ⟨ts, hts, d, hd, rfl⟩ := hgoto ▸ ((hagree _ hfr.func).2 b (Function.block?_mem hb)).1
  obtain ⟨vs, hvs⟩ : ∃ vs, fr.env.all args = some vs := Env.exists_all fun a ha => by
    refine hfr.bound ?_
    rw [hfr.index hb hnone]
    exact (hscoped.functions _ hfr.func).transfer hb (by rw [hgoto]; exact ha)
  exact ⟨d, vs, hd, hvs, by simpa using (Fold.mapM_eq_some.mp hts).length_eq⟩

/-- **The programs run in step.** -/
theorem refines (hagree : p.Agrees S τ) (hmain : p'.main = p.main)
    (hfunctions : ∀ func, Option.Rel (fun f f' => ∃ P, Splits n globals P f f') (p.function? func) (p'.function? func)) :
    Refines W p p' G (Frame.Defined W globals p) fun fr fr' => ∃ P, Alike n globals P fr fr' where
  main := hmain
  functions func := by
    have hrel := hfunctions func
    generalize p.function? func = o at hrel ⊢
    generalize p'.function? func = o' at hrel ⊢
    cases hrel with
    | none => exact .none
    | @some f f' h =>
      obtain ⟨P, h⟩ := h
      refine .some fun vs => ?_
      rw [Function.activate, Function.activate, h.makes.args]
      split
      · exact .some ⟨P, h, by rw [h.body_start, h.makes.start], rfl, fun _ _ => rfl⟩
      · exact .none
  block := fun _ hfr => (hscoped.functions _ hfr.func).exists_block? hfr.reach
  statement := by
    rintro fr fr' b s ⟨P, h⟩ hfr hb hs
    obtain ⟨c, hc, hstmts, -⟩ := h.splits.exists_body (h.splits.mem_labels hfr.reach) hb
    refine ⟨c, h.label ▸ hc, by rw [hstmts, h.index]; exact hs, fun x hx => h.env x ?_, fun v => ⟨P, ?_⟩⟩
    · exact h.splits.below.uses b (Function.block?_mem hb) s (List.mem_of_getElem? hs) x hx
    · refine ⟨h.splits, h.label, by simp [Frame.advance, h.index], fun x hx => ?_⟩
      cases hvar : s.var with
      | none => simpa [Frame.advance, hvar] using h.env x hx
      | some y =>
        simp only [Frame.advance, hvar, Option.elim_some]
        obtain rfl | hne := eq_or_ne x y
        · rw [Env.set_self, Env.set_self]
        · rw [Env.set_of_ne hne, Env.set_of_ne hne]
          exact h.env x hx
  transfer := by
    rintro fr fr' tr ⟨P, h⟩ hfr ⟨b, hb, hnone, rfl⟩ hgoto
    have hat := h.at_transfer (h.splits.mem_labels hfr.reach) hb hnone
    rw [transfer_of_not_goto hgoto] at hat
    exact ⟨hat, fun x hx => h.env x (h.splits.below.transfers b (Function.block?_mem hb) x hx)⟩
  enter := by
    rintro fr fr' tr l ⟨P, h⟩ hfr ⟨b, hb, hnone, rfl⟩ hgoto hl vs
    have hl' := h.splits.mem_labels_of_transfer (h.splits.mem_labels hfr.reach) hb hl
    obtain ⟨d, hd⟩ := (hscoped.functions _ hfr.func).targets hb l hl
    by_cases hlen : d.args.length = vs.length
    · obtain ⟨fr₁, fr₂, fr₁', henter, henter', hquiet, hF⟩ := h.enter W G p' hl' hd hlen
      rw [henter]
      exact ⟨fr₂, fr₁', henter', hquiet, P, hF⟩
    · obtain ⟨c, hc, hargs⟩ := h.splits.exists_label hl' hd
      have hfr' : fr'.enter l vs = none := by simp [Frame.enter, hc, hargs, hlen]
      rwa [show fr.enter l vs = none by simp [Frame.enter, hd, hlen]]
  goto := by
    rintro fr fr' dst args ⟨P, h⟩ hfr hat
    obtain ⟨d, vs, hd, hvs, hlen⟩ := exists_args hscoped hagree hfr hat
    obtain ⟨b, hb, hnone, hgoto⟩ := hat
    have hl := h.splits.mem_labels hfr.reach
    have hdst : dst ∈ P.labels :=
      h.splits.mem_labels_of_transfer hl hb (by rw [hgoto]; exact List.mem_singleton_self dst)
    have hat' := h.at_transfer hl hb hnone
    have hvs' : fr'.env.all args = some vs := by
      rw [← hvs]
      exact Env.all_congr fun x hx => h.env x
        (h.splits.below.transfers b (Function.block?_mem hb) x (by rw [hgoto]; exact hx))
    obtain ⟨fr₁, fr₂, fr₁', henter, henter', hquiet, hF⟩ :=
      h.enter W G p' hdst hd (hlen.symm.trans (Env.all_length hvs).symm)
    have henters : fr.enters dst args = some fr₁ := by rw [Frame.enters, hvs, Option.bind_some, henter]
    obtain htr | ⟨dst', hred, hinner, htr⟩ := transfer_goto hgoto hd
    · rw [htr] at hat'
      have henters' : fr'.enters dst args = some fr₂ := by rw [Frame.enters, hvs', Option.bind_some, henter']
      exact ⟨fr₁, fr₁', henters, .head' (fun _ _ => State.step_goto hat' henters') hquiet, P, hF⟩
    · rw [htr] at hat'
      rw [Function.block?_label hb] at hred
      obtain ⟨-, ws, hws, hlen', hρ⟩ := h.splits.redirected hred hb hgoto hinner hd h.env hvs hlen
      have hc := h.splits.block? (.inner hdst hd hinner)
      refine ⟨fr₁, ⟨fr'.func, dst', 0, fr'.env.sets ((P.kept d.args).map Prod.fst) ws⟩, henters,
        .single fun _ _ => State.step_goto hat' ?_, P, ?_⟩
      · rw [Frame.enters, hws, Option.bind_some, Frame.enter, hc, Option.bind_some,
          if_pos (by simpa [Plan.innerBlock] using hlen')]
        rfl
      · have hfr₁ : fr₁ = ⟨fr.func, dst, 0, fr.env.sets (d.args.map Prod.fst) vs⟩ := by
          rw [Frame.enter, hd, Option.bind_some, if_pos (hlen.symm.trans (Env.all_length hvs).symm)] at henter
          exact (Option.some.inj henter).symm
        subst hfr₁
        exact ⟨h.splits, by rw [Plan.body, hinner]; rfl, rfl, hρ⟩

omit hscoped in
/-- **A dropped formal is what the outer block has for it**, wherever control comes from a goto that is redirected. -/
theorem Alike.dropped (h : Alike n globals P fr fr') (hfr : fr.Defined W globals p) {dst dst' : Label}
    {args args' : List Var} {d d' : Block} {y : Var} (hat : fr.At (.goto dst args)) (hat' : fr'.At (.goto dst' args'))
    (hne : dst' ≠ dst) (hd : fr.func.block? dst = some d) (hd' : fr'.func.block? dst' = some d')
    (hy : y ∈ d.args.map Prod.fst) (hy' : y ∉ d'.args.map Prod.fst) {fr₁ : Frame}
    (henters : fr.enters dst args = some fr₁) : ∃ v, fr'.env y = some v ∧ fr₁.env y = some v := by
  obtain ⟨b, hb, hnone, hgoto⟩ := hat
  have hl := h.splits.mem_labels hfr.reach
  have hdst : dst ∈ P.labels :=
    h.splits.mem_labels_of_transfer hl hb (by rw [hgoto]; exact List.mem_singleton_self dst)
  have htr : P.transfer fr.func b = .goto dst' args' := by
    obtain ⟨c, hc, -, htr⟩ := h.at_transfer hl hb hnone
    obtain ⟨c', hc', -, htr'⟩ := hat'
    obtain rfl := Option.some.inj (hc.symm.trans hc')
    exact htr.symm.trans htr'
  obtain htr' | ⟨l', hred, hinner, htr'⟩ := transfer_goto hgoto hd
  · exact absurd (Transfer.goto.inj (htr.symm.trans htr')).1 hne
  · obtain ⟨rfl, -⟩ := Transfer.goto.inj (htr.symm.trans htr')
    have hc := h.splits.block? (.inner hdst hd hinner)
    obtain rfl := Option.some.inj (hc.symm.trans hd')
    have hdrop : P.dropped y = true := by
      by_contra hdrop
      exact hy' (mem_kept.mpr ⟨hy, by simpa using hdrop⟩)
    obtain ⟨vs, hvs, henter⟩ := Option.bind_eq_some_iff.mp henters
    rw [Frame.enter, hd, Option.bind_some] at henter
    obtain ⟨hlen, henter⟩ := Option.ite_none_right_eq_some.mp henter
    obtain rfl := Option.some.inj henter
    rw [Function.block?_label hb] at hred
    have hval := (h.splits.redirected hred hb hgoto hinner hd h.env hvs
      ((Env.all_length hvs).symm.trans hlen.symm)).1 y hy hdrop
    obtain ⟨v, hv⟩ := Env.sets_bound (ρ := fr.env) (.inr hy) (by simpa using hlen)
    exact ⟨v, (h.env y (h.splits.below.formals d (Function.block?_mem hd) y hy)).trans (hval.symm.trans hv), hv⟩

end Programs

/-! ## Names and types -/

section Types

variable {n lo hi : ℕ} {globals : List Var} {P : Plan} {f f' : Function} {l : Label} {p p' : Program}
  {S : Signatures} {τ : Types}

variable (hP : P.Sound lo hi f) (hlo : Below lo f) (hf' : Makes P f f') (hf : f.Scoped globals)

include hP hlo hf' hf

/-- The function that is made has some names of the range, and those of the function. -/
theorem Makes.renewed (hglobals : ∀ x ∈ globals, x.id < lo) : f.Renewed globals lo hi f' where
  args := hf'.args
  raises := hf'.raises
  returns := hf'.returns
  name := hf'.name
  wellScoped := hf'.scoped hP hlo hf hglobals
  labels m hm := by
    obtain ⟨c, hc, rfl⟩ := List.mem_map.mp hm
    obtain ⟨l, b, m, h⟩ := (mem_blocks_iff hf').mp hc
    have hmem := List.mem_map_of_mem (f := Block.label) (Function.block?_mem h.block?)
    rw [Function.block?_label h.block?] at hmem
    rw [h.label]
    cases h with
    | whole | outer => exact .inl hmem
    | inner _ _ hinner => exact .inr (hP.inner hinner)
  binds {x pt} hx := by
    obtain ⟨l, b, c, -, hb, -⟩ | ⟨y, rfl, hv, -⟩ := binds_cases hP hlo hf' hx
    · exact .inl ⟨_, hb⟩
    · exact .inr (hP.fresh hv)

omit hf in
/-- The formals of the old labels have the types they had. -/
theorem formals_old (hl : l ∈ P.labels) {ts : List Ty} (hts : f.Formals l ts) : f'.Formals l ts := by
  obtain ⟨b, hb, rfl⟩ := hts
  cases hinner : P.inner l with
  | none => exact ⟨_, (block?_iff hP hlo hf').mpr ⟨l, b, .whole hl hb hinner⟩, rfl⟩
  | some l' =>
    refine ⟨_, (block?_iff hP hlo hf').mpr ⟨l, b, .outer hl hb hinner⟩, ?_⟩
    simp [Plan.outerBlock]

omit hP hlo hf' hf in
/-- The arguments that stay are of the types of the formals that stay. -/
theorem all_passed : ∀ {args : List Var} {vts : List (Var × Ty)}, τ.all args = some (vts.map Prod.snd) →
    τ.all (P.passed args vts) = some ((P.kept vts).map Prod.snd)
  | [], [], _ => rfl
  | [], _ :: _, h => by simp [Types.all] at h
  | a :: args, [], h => by simpa using (Fold.mapM_eq_some.mp h).length_eq
  | a :: args, vt :: vts, h => by
    obtain ⟨ha, hargs⟩ := List.forall₂_cons.mp (Fold.mapM_eq_some.mp h)
    have ih := all_passed (Fold.mapM_eq_some.mpr hargs)
    simp only [Plan.passed, Plan.kept] at ih ⊢
    rw [List.zip_cons_cons]
    by_cases hdrop : P.dropped vt.1 = true
    · rw [List.filter_cons_of_neg (by simpa using hdrop), List.filter_cons_of_neg (by simpa using hdrop)]
      exact ih
    · rw [List.filter_cons_of_pos (by simpa using hdrop), List.filter_cons_of_pos (by simpa using hdrop)]
      exact Fold.mapM_eq_some.mpr (.cons ha (Fold.mapM_eq_some.mp ih))

omit hf in
/-- **The function that is made agrees**, with the types of the formals for their new names. -/
theorem Makes.typed (hbelow : Below n f) (hagree : f.Agrees S τ p)
    (hfunc : ∀ func g, p.function? func = some g → ∃ g', p'.function? func = some g' ∧ g.SameSignature g') :
    f'.Typed S τ n p' lo hi := by
  classical
  refine ⟨fun x => if h : ∃ y, (∃ l, P.Varies f l y) ∧ P.fresh y = x then τ h.choose else none, ?_⟩
  intro τ' hold hnew
  have hfresh : ∀ {l y}, P.Varies f l y → τ' (P.fresh y) = τ y := by
    intro l y hv
    have hex : ∃ z, (∃ l, P.Varies f l z) ∧ P.fresh z = P.fresh y := ⟨y, ⟨l, hv⟩, rfl⟩
    obtain ⟨⟨m, hm⟩, heq⟩ := hex.choose_spec
    rw [hnew _ (hP.fresh hv).1 (hP.fresh hv).2]
    simp only [hex, dif_pos]
    rw [hP.freshInj hm hv heq]
  obtain ⟨hargs, hblocks⟩ := hagree
  have hformal : ∀ {b vt}, b ∈ f.blocks → vt ∈ b.args → τ' vt.1 = some vt.2 := fun {b vt} hb hvt =>
    (hold _ (hbelow.formals b hb _ (List.mem_map_of_mem hvt))).trans ((hblocks b hb).2 vt hvt)
  have hsame : f.SameSignature f' := ⟨hf'.args, hf'.raises, hf'.returns⟩
  -- the transfers of the bodies
  have htransfer : ∀ {l b}, l ∈ P.labels → f.block? l = some b → (P.transfer f b).Agrees S τ' p' f' := by
    intro l b hl hb
    have hmem := Function.block?_mem hb
    have hagree := ((hblocks b hmem).1.congr fun x hx => hold x (hbelow.transfers b hmem x hx)).map hsame
      (fun k hk ts => formals_old hP hlo hf' (hP.closed l hl k (Function.succs_of_block? hb ▸ hk))) hfunc
    by_cases hgoto : b.transfer.isGoto = false
    · rwa [transfer_of_not_goto hgoto]
    · cases htr : b.transfer with
      | goto dst args =>
        obtain ⟨ts, hts, d, hd, rfl⟩ := htr ▸ (hblocks b hmem).1
        have hdst : dst ∈ P.labels := hP.closed l hl dst (by
          rw [Function.succs_of_block? hb, htr]
          exact List.mem_singleton_self dst)
        obtain heq | ⟨dst', hred, hinner, heq⟩ := transfer_goto htr hd
        · rw [heq, ← htr]
          exact hagree
        · rw [heq]
          have hτ : τ'.all args = some (d.args.map Prod.snd) := by
            rw [← hts]
            exact Types.all_congr fun x hx => hold x (hbelow.transfers b hmem x (by rw [htr]; exact hx))
          exact ⟨_, all_passed hτ, _, (block?_iff hP hlo hf').mpr ⟨dst, d, .inner hdst hd hinner⟩, rfl⟩
      | _ => exact absurd (by rw [htr]; rfl) hgoto
  refine ⟨fun vt hvt => ?_, fun c hc => ?_⟩
  · rw [hf'.args] at hvt
    exact (hold _ (hbelow.args _ (List.mem_map_of_mem hvt))).trans (hargs vt hvt)
  · obtain ⟨l, b, m, h⟩ := (mem_blocks_iff hf').mp hc
    have hmem := Function.block?_mem h.block?
    cases h with
    | whole hl hb hinner => exact ⟨htransfer hl hb, fun vt hvt => hformal hmem hvt⟩
    | inner hl hb hinner => exact ⟨htransfer hl hb, fun vt hvt => hformal hmem (List.mem_filter.mp hvt).1⟩
    | outer hl hb hinner =>
      have hvaries : ∀ {vt}, vt ∈ P.kept b.args → τ' (P.fresh vt.1) = some vt.2 := fun {vt} hvt =>
        (hfresh ⟨_, b, hinner, hb, List.mem_map_of_mem hvt⟩).trans ((hblocks b hmem).2 vt (List.mem_filter.mp hvt).1)
      refine ⟨⟨(P.kept b.args).map Prod.snd, ?_, _, (block?_iff hP hlo hf').mpr ⟨l, b, .inner hl hb hinner⟩, rfl⟩,
        fun vt hvt => ?_⟩
      · refine Fold.mapM_eq_some.mpr (List.forall₂_map_left_iff.mpr (List.forall₂_map_right_iff.mpr ?_))
        exact List.forall₂_same.mpr fun vt hvt => hvaries hvt
      · obtain ⟨vt, hmem', rfl⟩ := List.mem_map.mp hvt
        by_cases hdrop : P.dropped vt.1 = true
        · simpa [Plan.outer, hdrop] using hformal hmem hmem'
        · simpa [Plan.outer, hdrop] using hvaries (List.mem_filter.mpr ⟨hmem', by simpa using hdrop⟩)

end Types

end MLton.Ssa.HeaderSplit
