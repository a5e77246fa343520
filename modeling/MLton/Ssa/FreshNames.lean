import MLton.Ssa.Scopes
import MLton.Ssa.TypeCheck

/-!
# Ssa/FreshNames — passes that give some things new names

The functions of a program are rewritten one after the other, and each draws its new names from where the one before
left off (`Drawn`).  Then what the program has different names for, the rewritten one has (`scoped_of_drawn`), and
the types of the new names can be put together (`agrees_of_drawn`).
-/

namespace MLton.Ssa

/-- One after the other, each with a range of its own. -/
inductive Drawn {α β : Type} (R : ℕ → ℕ → α → β → Prop) : ℕ → List α → List β → ℕ → Prop
  | nil (n : ℕ) : Drawn R n [] [] n
  | cons {lo mid hi : ℕ} {a : α} {b : β} {as : List α} {bs : List β} : lo ≤ mid → R lo mid a b →
      Drawn R mid as bs hi → Drawn R lo (a :: as) (b :: bs) hi

namespace Drawn

variable {α β : Type} {R R' : ℕ → ℕ → α → β → Prop} {lo hi : ℕ} {as : List α} {bs : List β}

theorem le (h : Drawn R lo as bs hi) : lo ≤ hi := by
  induction h with
  | nil => exact Nat.le_refl _
  | cons hle _ _ ih => exact Nat.le_trans hle ih

theorem mono (h : Drawn R lo as bs hi) (hR : ∀ {lo hi a b}, a ∈ as → R lo hi a b → R' lo hi a b) :
    Drawn R' lo as bs hi := by
  induction h with
  | nil => exact .nil _
  | cons hle hab _ ih =>
    exact .cons hle (hR (List.mem_cons_self ..) hab) (ih fun ha => hR (List.mem_cons_of_mem _ ha))

/-- What is drawn corresponds, with ranges within the whole. -/
theorem forall₂ (h : Drawn R lo as bs hi) :
    List.Forall₂ (fun a b => ∃ lo' hi', lo ≤ lo' ∧ hi' ≤ hi ∧ R lo' hi' a b) as bs := by
  induction h with
  | nil => exact .nil
  | cons hle hab hrest ih =>
    refine .cons ⟨_, _, Nat.le_refl _, hrest.le, hab⟩ (ih.imp fun _ _ ⟨lo', hi', hlo, hhi, hR⟩ => ?_)
    exact ⟨lo', hi', Nat.le_trans hle hlo, hhi, hR⟩

/-- A run of actions draws one range after the other. -/
theorem of_mapM {n : ℕ} {g : α → StateM Supply β} : ∀ {as : List α} {lo : ℕ}, n ≤ lo →
    (∀ a ∈ as, ∀ m, n ≤ m → m ≤ ((g a).run m).2 ∧ R m ((g a).run m).2 a ((g a).run m).1) →
    Drawn R lo as ((as.mapM g).run lo).1 ((as.mapM g).run lo).2
  | [], lo, _, _ => .nil lo
  | a :: as, lo, hlo, h => by
    obtain ⟨ha, has⟩ := List.forall_mem_cons.mp h
    obtain ⟨hle, hR⟩ := ha lo hlo
    rw [List.mapM_cons]
    exact .cons hle hR (of_mapM (Nat.le_trans hlo hle) has)

end Drawn

/-- A function with some names of the range added. -/
structure Function.Renewed (globals : List Var) (lo hi : ℕ) (f f' : Function) : Prop extends f.SameSignature f' where
  wellScoped : f'.Scoped globals
  name : f'.name = f.name
  labels : ∀ l ∈ f'.blocks.map Block.label, l ∈ f.blocks.map Block.label ∨ (lo ≤ l.id ∧ l.id < hi)
  binds : ∀ {x pt}, f'.Binds x pt → (∃ q, f.Binds x q) ∨ (lo ≤ x.id ∧ x.id < hi)

/-- Functions that have no label and no variable in common. -/
structure Function.Apart (f g : Function) : Prop where
  labels : ∀ l ∈ f.blocks.map Block.label, l ∉ g.blocks.map Block.label
  binds : ∀ {x pt pt'}, f.Binds x pt → ¬ g.Binds x pt'

theorem Function.Apart.symm {f g : Function} (h : f.Apart g) : g.Apart f :=
  ⟨fun l hl hl' => h.labels l hl' hl, fun hx hx' => h.binds hx' hx⟩

/-- The names of the program are below the range. -/
structure Program.Named (globals : List Var) (n : ℕ) (p : Program) : Prop where
  globals : ∀ x ∈ globals, x.id < n
  args : ∀ f ∈ p.functions, ∀ x ∈ f.args.map Prod.fst, x.id < n
  labels : ∀ f ∈ p.functions, ∀ l ∈ f.blocks.map Block.label, l.id < n
  binds : ∀ f ∈ p.functions, ∀ {x pt}, f.Binds x pt → x.id < n

section Scoped

variable {globals : List Var} {n lo hi : ℕ} {p : Program} {fs fs' : List Function}

/-- The functions of a program are apart. -/
theorem Program.Scoped.pairwise (h : p.Scoped globals) : p.functions.Pairwise Function.Apart := by
  have hne := List.Nodup.of_map _ h.names
  have hlabels := (List.nodup_flatMap.mp h.labels).2
  refine (hne.and hlabels).imp_of_mem fun {f g} hf hg ⟨hne, hlabels⟩ => ⟨fun l hl hl' => hlabels hl hl', ?_⟩
  exact fun hx hx' => hne (h.apart f hf g hg hx hx')

/-- **Functions that were apart stay apart**: the new names are none of the old ones, and of one function only. -/
theorem Drawn.pairwise (h : Drawn (Function.Renewed globals) lo fs fs' hi) (hn : n ≤ lo)
    (hlabels : ∀ f ∈ fs, ∀ l ∈ f.blocks.map Block.label, l.id < n)
    (hbinds : ∀ f ∈ fs, ∀ {x pt}, f.Binds x pt → x.id < n) (hapart : fs.Pairwise Function.Apart) :
    fs'.Pairwise Function.Apart := by
  induction h with
  | nil => exact .nil
  | @cons lo mid hi f f' fs fs' hle hf hrest ih =>
    obtain ⟨hapart, hpairwise⟩ := List.pairwise_cons.mp hapart
    obtain ⟨hlabel, hlabels⟩ := List.forall_mem_cons.mp hlabels
    have hbind : ∀ {x pt}, f.Binds x pt → x.id < n := hbinds f (List.mem_cons_self ..)
    have hbinds : ∀ g ∈ fs, ∀ {x pt}, g.Binds x pt → x.id < n := fun g hg => hbinds g (List.mem_cons_of_mem _ hg)
    refine .cons (fun g' hg' => ?_) (ih (Nat.le_trans hn hle) hlabels hbinds hpairwise)
    obtain ⟨g, hg, lo', hi', hlo', -, hR⟩ := Fold.exists_of_mem_right hrest.forall₂ hg'
    constructor
    · intro l hl hl'
      obtain hold | ⟨hfrom, hto⟩ := hf.labels l hl <;> obtain hold' | ⟨hfrom', hto'⟩ := hR.labels l hl'
      · exact (hapart g hg).labels l hold hold'
      · have := hlabel l hold
        omega
      · have := hlabels g hg l hold'
        omega
      · omega
    · intro x pt pt' hx hx'
      obtain ⟨q, hold⟩ | ⟨hfrom, hto⟩ := hf.binds hx <;> obtain ⟨q', hold'⟩ | ⟨hfrom', hto'⟩ := hR.binds hx'
      · exact (hapart g hg).binds hold hold'
      · have := hbind hold
        omega
      · have := hbinds g hg hold'
        omega
      · omega

/-- The names stay, in their order. -/
theorem Drawn.names {R : ℕ → ℕ → Function → Function → Prop} (h : Drawn R lo fs fs' hi)
    (hname : ∀ {lo hi f f'}, R lo hi f f' → f'.name = f.name) : fs'.map Function.name = fs.map Function.name := by
  induction h with
  | nil => rfl
  | cons _ hf _ ih => rw [List.map_cons, List.map_cons, ih, hname hf]

/-- **The rewritten program is well scoped.** -/
theorem Program.Scoped.of_drawn {p' : Program} (hp : p.Scoped globals) (hnamed : p.Named globals n)
    (h : Drawn (Function.Renewed globals) n p.functions fs hi) (hp' : p'.functions = fs.reverse) : p'.Scoped globals := by
  have hone : ∀ f' ∈ p'.functions, ∃ f ∈ p.functions, ∃ lo hi, n ≤ lo ∧ f.Renewed globals lo hi f' := by
    intro f' hf'
    rw [hp', List.mem_reverse] at hf'
    obtain ⟨f, hf, lo, hi, hlo, -, hR⟩ := Fold.exists_of_mem_right h.forall₂ hf'
    exact ⟨f, hf, lo, hi, hlo, hR⟩
  have hnames : (p'.functions.map Function.name).Nodup := by
    rw [hp', List.map_reverse, List.nodup_reverse, h.names Function.Renewed.name]
    exact hp.names
  have hapart := h.pairwise (Nat.le_refl n) hnamed.labels hnamed.binds hp.pairwise
  have hsymm : Std.Symm Function.Apart := ⟨fun _ _ h => h.symm⟩
  have hlabels : (fs.flatMap fun f => f.blocks.map Block.label).Nodup := by
    refine List.nodup_flatMap.mpr ⟨fun f' hf' => ?_, hapart.imp fun h => h.labels⟩
    obtain ⟨f, -, _, _, -, -, hR⟩ := Fold.exists_of_mem_right h.forall₂ hf'
    exact hR.wellScoped.labels
  refine ⟨fun f' hf' => ?_, hnames, ?_, ?_, ?_, ?_, fun f' hf' => ?_⟩
  · obtain ⟨f, hf, lo, hi, -, hR⟩ := hone f' hf'
    exact hR.wellScoped
  · rw [hp']
    exact ((List.reverse_perm fs).flatMap_right _).nodup_iff.mpr hlabels
  · intro f' hf' g' hg' x pt pt' hx hx'
    rw [hp', List.mem_reverse] at hf' hg'
    by_contra hne
    exact (hapart.forall hf' hg' hne).binds hx hx'
  · intro f' hf' g' hg' x pt hx hgiven
    obtain ⟨f, hf, lo, hi, hlo, hR⟩ := hone f' hf'
    obtain ⟨g, hg, _, _, -, hR'⟩ := hone g' hg'
    have hgiven : g.Given globals x := hgiven.imp_right fun h => hR'.args ▸ h
    obtain ⟨q, hq⟩ | ⟨hfrom, -⟩ := hR.binds hx
    · exact hp.args f hf g hg hq hgiven
    · have := hgiven.elim (hnamed.globals x) (hnamed.args g hg x)
      omega
  · intro f' hf' g' hg' x hx hx'
    obtain ⟨f, hf, _, _, -, hR⟩ := hone f' hf'
    obtain ⟨g, hg, _, _, -, hR'⟩ := hone g' hg'
    rw [hR.args] at hx
    rw [hR'.args] at hx'
    obtain rfl := hp.argsApart f hf g hg hx hx'
    exact List.inj_on_of_nodup_map hnames hf' hg' (hR.name.trans hR'.name.symm)
  · obtain ⟨f, hf, _, _, -, hR⟩ := hone f' hf'
    rw [hR.args]
    exact hp.globals f hf

/-- The functions of the rewritten program are found where the old ones were. -/
theorem Program.Scoped.rel_function? {R : ℕ → ℕ → Function → Function → Prop} {p' : Program} (hp : p.Scoped globals)
    (h : Drawn R n p.functions fs hi) (hname : ∀ {lo hi f f'}, R lo hi f f' → f'.name = f.name)
    (hp' : p'.functions = fs.reverse) (func : Func) :
    Option.Rel (fun f f' => ∃ lo hi, n ≤ lo ∧ R lo hi f f') (p.function? func) (p'.function? func) := by
  rw [Program.function?, Program.function?, hp', Fold.find?_key_reverse (h.names hname ▸ hp.names)]
  refine Fold.rel_find? (fun ⟨_, _, _, hR⟩ => hname hR) (h.forall₂.imp fun f f' ⟨lo, hi, hlo, _, hR⟩ => ?_) func
  exact ⟨lo, hi, hlo, hR⟩

end Scoped

/-! ## New formals -/

/-- New names for formals. -/
def freshArgs : List (Var × Ty) → ℕ → List (Var × Ty)
  | [], _ => []
  | arg :: args, n => (⟨n⟩, arg.2) :: freshArgs args (n + 1)

theorem length_freshArgs : ∀ (args : List (Var × Ty)) (n : ℕ), (freshArgs args n).length = args.length
  | [], _ => rfl
  | _ :: args, n => congrArg Nat.succ (length_freshArgs args (n + 1))

theorem mem_freshArgs {x : Var} : ∀ {args : List (Var × Ty)} {n : ℕ}, x ∈ (freshArgs args n).map Prod.fst →
    n ≤ x.id ∧ x.id < n + args.length
  | _ :: args, n, h => by
    obtain rfl | h := List.mem_cons.mp h
    · exact ⟨Nat.le_refl n, Nat.lt_add_of_pos_right (Nat.succ_pos _)⟩
    · obtain ⟨hle, hlt⟩ := mem_freshArgs h
      exact ⟨Nat.le_of_succ_le hle, by rw [List.length_cons]; omega⟩

theorem nodup_freshArgs : ∀ (args : List (Var × Ty)) (n : ℕ), ((freshArgs args n).map Prod.fst).Nodup
  | [], _ => List.nodup_nil
  | _ :: args, n =>
    List.nodup_cons.mpr ⟨fun h => absurd (mem_freshArgs h).1 (Nat.not_succ_le_self n), nodup_freshArgs args (n + 1)⟩

theorem run_freshArgs : ∀ (args : List (Var × Ty)) (n : ℕ),
    (args.mapM fun arg => do return (← Var.newNoname, arg.2) : StateM Supply _).run n =
      (freshArgs args n, n + args.length)
  | [], _ => rfl
  | arg :: args, n => by
    have hrest := run_freshArgs args (n + 1)
    rw [List.mapM_cons]
    change (((⟨n⟩ : Var), arg.2) :: (StateT.run (List.mapM _ args) (n + 1) : Id _).1,
      (StateT.run (List.mapM _ args) (n + 1) : Id _).2) = _
    rw [hrest, List.length_cons, Nat.add_right_comm]
    rfl

/-- The names of a program are below a bound, if those are that its blocks and functions have. -/
theorem Program.Named.of_variables {globals : List Var} {n : ℕ} {p : Program} (hvars : ∀ x ∈ p.variables globals, x.id < n)
    (hlabels : ∀ f ∈ p.functions, ∀ l ∈ f.blocks.map Block.label, l.id < n) : p.Named globals n := by
  have hmem : ∀ f ∈ p.functions, ∀ x ∈ f.args.map Prod.fst ++ f.definitions.map Prod.fst, x.id < n := fun f hf x hx =>
    hvars x (List.mem_append_right _ (List.mem_flatMap.mpr ⟨f, hf, hx⟩))
  refine ⟨fun x hx => hvars x (List.mem_append_left _ hx), fun f hf x hx => ?_, hlabels, fun f hf {x pt} hx => ?_⟩
  · exact hmem f hf x (List.mem_append_left _ hx)
  · exact hmem f hf x hx.mem_vars

/-! ## Types -/

section Types

variable {S : Signatures} {τ : Types} {n lo hi : ℕ} {p p' : Program} {f f' : Function} {fs fs' : List Function}

/-- What `Program.Agrees` asks of a function. -/
def Function.Agrees (S : Signatures) (τ : Types) (p : Program) (f : Function) : Prop :=
  (∀ vt ∈ f.args, τ vt.1 = some vt.2) ∧
    ∀ b ∈ f.blocks, b.transfer.Agrees S τ p f ∧ ∀ vt ∈ b.args, τ vt.1 = some vt.2

/-- The types of the new names can be chosen so that the function agrees, whatever the others are. -/
def Function.Typed (S : Signatures) (τ : Types) (n : ℕ) (p' : Program) (lo hi : ℕ) (f' : Function) : Prop :=
  ∃ τ₁ : Types, ∀ τ' : Types, (∀ x : Var, x.id < n → τ' x = τ x) →
    (∀ x : Var, lo ≤ x.id → x.id < hi → τ' x = τ₁ x) → f'.Agrees S τ' p'

/-- The types of the names of the range can be chosen so that this holds, whatever the other new types are. -/
def Types.Chosen (τ : Types) (n lo hi : ℕ) (A : Types → Prop) : Prop :=
  ∃ τ₁ : Types, ∀ τ' : Types, (∀ x : Var, x.id < n → τ' x = τ x) →
    (∀ x : Var, lo ≤ x.id → x.id < hi → τ' x = τ₁ x) → A τ'

/-- **The types of the new names can be put together.** -/
theorem chosen_of_drawn {A : Types → Function → Prop} (hn : n ≤ lo)
    (h : Drawn (fun lo hi _ f' => τ.Chosen n lo hi (A · f')) lo fs fs' hi) :
    ∃ τ' : Types, (∀ x : Var, x.id < lo → τ' x = τ x) ∧ ∀ f' ∈ fs', A τ' f' := by
  suffices ∃ τ₁ : Types, ∀ τ' : Types, (∀ x : Var, x.id < n → τ' x = τ x) →
      (∀ x : Var, lo ≤ x.id → x.id < hi → τ' x = τ₁ x) → ∀ f' ∈ fs', A τ' f' by
    obtain ⟨τ₁, hτ₁⟩ := this
    refine ⟨fun x => if x.id < lo then τ x else τ₁ x, fun x hx => if_pos hx, hτ₁ _ (fun x hx => ?_) fun x hx _ => ?_⟩
    · exact if_pos (Nat.lt_of_lt_of_le hx hn)
    · exact if_neg (Nat.not_lt.mpr hx)
  clear hn
  induction h with
  | nil => exact ⟨τ, fun _ _ _ f' hf' => absurd hf' List.not_mem_nil⟩
  | @cons lo mid hi _ f' _ _ hle hf hrest ih =>
    obtain ⟨τ₁, hτ₁⟩ := hf
    obtain ⟨τ₂, hτ₂⟩ := ih
    refine ⟨fun x => if x.id < mid then τ₁ x else τ₂ x, fun τ' hold hnew g' hg' => ?_⟩
    obtain rfl | hg' := List.mem_cons.mp hg'
    · refine hτ₁ τ' hold fun x hlo hmid => ?_
      exact (hnew x hlo (Nat.lt_of_lt_of_le hmid hrest.le)).trans (if_pos hmid)
    · refine hτ₂ τ' hold (fun x hmid hhi => ?_) g' hg'
      exact (hnew x (Nat.le_trans hle hmid) hhi).trans (if_neg (Nat.not_lt.mpr hmid))

theorem agrees_of_drawn (hn : n ≤ lo) (h : Drawn (fun lo hi _ f' => f'.Typed S τ n p' lo hi) lo fs fs' hi) :
    ∃ τ' : Types, (∀ x : Var, x.id < lo → τ' x = τ x) ∧ ∀ f' ∈ fs', f'.Agrees S τ' p' :=
  chosen_of_drawn hn h

theorem Types.all_congr {τ' : Types} {xs : List Var} (h : ∀ x ∈ xs, τ' x = τ x) : τ'.all xs = τ.all xs := by
  induction xs with
  | nil => rfl
  | cons x xs ih =>
    obtain ⟨hx, hxs⟩ := List.forall_mem_cons.mp h
    have hxs := ih hxs
    simp only [Types.all, List.mapM_cons] at hxs ⊢
    rw [hx, hxs]

/-- A transfer looks at the types of its variables only. -/
theorem Transfer.Agrees.congr {τ' : Types} {tr : Transfer} (h : tr.Agrees S τ p f)
    (hτ : ∀ x ∈ tr.vars, τ' x = τ x) : tr.Agrees S τ' p f := by
  cases tr with
  | bug | case => exact h
  | call args func k =>
    obtain ⟨callee, hcallee, hargs, hk⟩ := h
    exact ⟨callee, hcallee, (Types.all_congr hτ).trans hargs, hk⟩
  | goto dst args =>
    obtain ⟨ts, hargs, hdst⟩ := h
    exact ⟨ts, (Types.all_congr hτ).trans hargs, hdst⟩
  | raise xs | ret xs =>
    obtain ⟨ts, hts, hxs⟩ := h
    exact ⟨ts, (Types.all_congr hτ).trans hts, hxs⟩
  | runtime prim args l =>
    obtain ⟨ts, ts', hargs, hl, hprim⟩ := h
    exact ⟨ts, ts', (Types.all_congr hτ).trans hargs, hl, hprim⟩

end Types

end MLton.Ssa
