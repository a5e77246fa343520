import MLton.Machinery.Dfs
import MLton.Ssa.Detours

/-!
# Ssa/Prepasses — blocks and functions that nothing reaches

`eliminate` drops the blocks that a depth-first search from the start of their function does not come to, and
`orderFunctions` keeps the functions and the blocks that searches come to, in that order.  No run leaves them, so that the
programs run the same.
-/

namespace MLton.Ssa

open MLton.Effects MLton.Simulation

/-- `Transfer.foreachFunc`, as a list. -/
def Transfer.funcs : Transfer → List Func
  | call _ func _ => [func]
  | _ => []

/-- The labels that the search comes to, in that order. -/
def Function.reached (f : Function) : List Label :=
  (Dfs.search f.succs (fun u _ => u) (fun u _ => u) (f.labels.length + 1) () f.start).1.reverse

/-- `Function.dfs`, as the list of blocks. -/
def Function.dfs (f : Function) : List Block := f.reached.filterMap f.block?

namespace Program

/-- The functions that a search of the function sees calls of. -/
def calls (p : Program) (name : Func) : List Func :=
  (p.function? name).toList.flatMap fun f => f.dfs.flatMap (·.transfer.funcs)

/-- The functions that the search comes to, in that order. -/
def reached (p : Program) : List Func :=
  (Dfs.search p.calls (fun u _ => u) (fun u _ => u) (p.functions.length + 1) () p.main).1.reverse

/-- `Program.dfs`, as the list of functions. -/
def dfs (p : Program) : List Function := p.reached.filterMap p.function?

/-- What is called is there. -/
def Closed (p : Program) : Prop :=
  p.main ∈ p.functions.map Function.name ∧ ∀ name ∈ p.functions.map Function.name, p.calls name ⊆ p.functions.map Function.name

end Program

namespace Prepasses

/-! ## The passes -/

/-- `DeadBlocks.eliminateFunction`. -/
def eliminateFunction (f : Function) : Function :=
  let isLive := fun b : Block => decide (b.label ∈ f.dfs.map Block.label)
  if f.blocks.all isLive then f else { f with blocks := f.blocks.filter isLive }

/-- `DeadBlocks.eliminate`. -/
def eliminate (p : Program) : Program := { p with functions := (p.functions.map eliminateFunction).reverse }

/-- `Order.orderFunctions`. -/
def orderFunctions (p : Program) : Program := { p with functions := p.dfs.map fun f => { f with blocks := f.dfs } }

/-! ## What is looked up -/

section Blocks

variable {globals : List Var} {f : Function} {l : Label} {b : Block}

/-- Where entries are those that another list has for their keys, they are found. -/
theorem find?_of_agrees {α κ : Type*} [DecidableEq κ] {key : α → κ} (xs : List α) {ys : List α} {x : α}
    (h : ∀ y ∈ ys, xs.find? (key · = key y) = some y) (hx : x ∈ ys) : ys.find? (key · = key x) = some x := by
  cases hy : ys.find? (key · = key x) with
  | none => simpa using List.find?_eq_none.mp hy x hx
  | some y =>
    have hkey : key y = key x := by simpa using List.find?_some hy
    rw [← h y (List.mem_of_find?_eq_some hy), hkey, h x hx]

theorem mem_reached : l ∈ f.reached ↔ Relation.ReflTransGen (Dfs.Edge f.succs) f.start l :=
  List.mem_reverse.trans
    (Dfs.mem_search_iff (fun u _ => f.succs_subset_labels u) (Nat.lt_succ_self _) f.start_mem_labels)

theorem mem_reached_of_reachable {pt : Point} (h : f.Reachable pt) : pt.1 ∈ f.reached := by
  induction h with
  | refl => exact mem_reached.mpr .refl
  | tail _ hmove ih =>
    cases hmove with
    | statement => exact ih
    | transfer hb hl =>
      refine mem_reached.mpr ((mem_reached.mp ih).tail ?_)
      rw [Dfs.Edge, Function.succs_of_block? hb]
      exact hl

theorem mem_dfs : b ∈ f.dfs ↔ b.label ∈ f.reached ∧ f.block? b.label = some b := by
  refine List.mem_filterMap.trans ⟨?_, fun h => ⟨_, h⟩⟩
  rintro ⟨l, hl, hb⟩
  obtain rfl := Function.block?_label hb
  exact ⟨hl, hb⟩

theorem block?_dfs (hl : l ∈ f.reached) (hb : f.block? l = some b) : f.dfs.find? (·.label = l) = some b := by
  obtain rfl := Function.block?_label hb
  exact find?_of_agrees f.blocks (fun _ h => (mem_dfs.mp h).2) (mem_dfs.mpr ⟨hl, hb⟩)

theorem block?_eliminateFunction (hf : f.Scoped globals) (hl : l ∈ f.reached) (hb : f.block? l = some b) :
    (eliminateFunction f).block? l = some b := by
  obtain rfl := Function.block?_label hb
  rw [eliminateFunction]
  split_ifs
  · exact hb
  · refine find?_of_agrees f.blocks (fun c hc => hf.block?_of_mem (List.mem_of_mem_filter hc)) (List.mem_filter.mpr
      ⟨Function.block?_mem hb, decide_eq_true (List.mem_map_of_mem (mem_dfs.mpr ⟨hl, hb⟩))⟩)

end Blocks

/-! ## Whole runs -/

section Runs

variable {W : World} {G : Env} {globals : List Var} {p p' : Program} {live : Func → Prop}

/-- The function keeps what is reached of it. -/
structure Retains (live : Func → Prop) (f f' : Function) : Prop where
  live : live f.name
  name : f'.name = f.name
  args : f'.args = f.args
  start : f'.start = f.start
  block : ∀ {l b}, l ∈ f.reached → f.block? l = some b → f'.block? l = some b

/-- **A program that keeps what is reached runs the same.** -/
theorem sameRuns_of_retains (live : Func → Prop) (hscoped : p.Scoped globals) (hG : ∀ x ∈ globals, ∃ v, G x = some v)
    (hmain : p'.main = p.main) (hlive : live p.main) (hcalls : ∀ name, live name → ∀ g ∈ p.calls name, live g)
    (h : ∀ name, live name → Option.Rel (Retains live) (p.function? name) (p'.function? name)) : p.SameRuns W G p' := by
  have hcounter : Counterparts W p p' G globals (Retains live) :=
    { main := hmain
      functions := h _ hlive
      activate := fun _ hR vs => .of_rel (Frame.Alike.activate hR hR.args hR.start vs)
      block := fun {f f' l i b} _ hR hreach hb => ⟨b, hR.block (mem_reached_of_reachable hreach) hb, rfl, rfl⟩ }
  refine Redirects.sameRuns hscoped ⟨hcounter, fun {fr fr' tr} hF hglobal hat => ?_⟩ hG
  have hfr := hglobal.toDefined
  obtain ⟨b, hb, hnone, rfl⟩ := id hat
  have hreached := mem_reached_of_reachable hfr.reach
  refine ⟨fr', _, .refl, ⟨b, hF.label ▸ hF.func.block hreached hb, hF.index ▸ hnone, rfl⟩,
    hcounter.takes hscoped hF.func hF.env hfr hat fun args func k htr => h func (hcalls _ hF.func.live _ ?_)⟩
  -- the function is called from a block that the search comes to
  rw [Program.calls, show p.function? fr.func.name = some fr.func from Fold.find?_key hscoped.names _ hfr.func]
  have hmem : b ∈ fr.func.dfs := List.mem_filterMap.mpr ⟨_, hreached, hb⟩
  simpa using ⟨b, hmem, by rw [htr]; exact List.mem_singleton_self _⟩

theorem Retains.reached {f f' : Function} (h : Retains live f f') {l : Label} (hl : l ∈ f.reached) : l ∈ f'.reached := by
  rw [mem_reached] at hl ⊢
  induction hl with
  | refl => exact h.start ▸ .refl
  | @tail l l' hl hl' ih =>
    refine ih.tail ?_
    rw [Dfs.Edge, Function.succs] at hl' ⊢
    cases hb : f.block? l with
    | none => simp [hb] at hl'
    | some b => rwa [h.block (mem_reached.mpr hl) hb, ← hb]

/-- **`eliminate` keeps the runs of the program**, and no block that the start of its function does not reach. -/
theorem eliminate_sameRuns (hscoped : p.Scoped globals) (hG : ∀ x ∈ globals, ∃ v, G x = some v) :
    p.SameRuns W G (eliminate p) ∧ ∀ f' ∈ (eliminate p).functions, ∀ b ∈ f'.blocks,
      Relation.ReflTransGen (Dfs.Edge f'.succs) f'.start b.label := by
  have hretains : ∀ f ∈ p.functions, Retains (fun _ => True) f (eliminateFunction f) := fun f hf =>
    { live := trivial
      name := by rw [eliminateFunction]; split_ifs <;> rfl
      args := by rw [eliminateFunction]; split_ifs <;> rfl
      start := by rw [eliminateFunction]; split_ifs <;> rfl
      block := block?_eliminateFunction (hscoped.functions f hf) }
  have hall : List.Forall₂ (Retains fun _ => True) p.functions (p.functions.map eliminateFunction) :=
    List.forall₂_map_right_iff.mpr (List.forall₂_same.mpr hretains)
  refine ⟨sameRuns_of_retains _ hscoped hG rfl trivial (fun _ _ _ _ => trivial) fun name _ => ?_, fun f' hf' b hb => ?_⟩
  · have hnames : (p.functions.map eliminateFunction).map Function.name = p.functions.map Function.name := by
      rw [List.map_map]
      exact List.map_congr_left fun f hf => (hretains f hf).name
    rw [Program.function?, Program.function?, eliminate, Fold.find?_key_reverse (hnames ▸ hscoped.names)]
    exact Fold.rel_find? (fun h => h.name) hall name
  · obtain ⟨f, hf, rfl⟩ := List.mem_map.mp (List.mem_reverse.mp hf')
    refine mem_reached.mp ((hretains f hf).reached ?_)
    have hlive : b.label ∈ f.dfs.map Block.label := by
      rw [eliminateFunction] at hb
      split_ifs at hb with hall
      · exact of_decide_eq_true (List.all_eq_true.mp hall b hb)
      · exact of_decide_eq_true (List.mem_filter.mp hb).2
    obtain ⟨c, hc, heq⟩ := List.mem_map.mp hlive
    exact heq ▸ (mem_dfs.mp hc).1

/-- **`orderFunctions` keeps the runs of the program**, and the functions that calls lead to from the main one. -/
theorem orderFunctions_sameRuns (hscoped : p.Scoped globals) (hG : ∀ x ∈ globals, ∃ v, G x = some v) (hp : p.Closed) :
    p.SameRuns W G (orderFunctions p) ∧ ∀ name,
      name ∈ (orderFunctions p).functions.map Function.name ↔ Relation.ReflTransGen (Dfs.Edge p.calls) p.main name := by
  have hreached : ∀ name, name ∈ p.reached ↔ Relation.ReflTransGen (Dfs.Edge p.calls) p.main name := fun name =>
    List.mem_reverse.trans (Dfs.mem_search_iff hp.2 (by simp) hp.1)
  -- the functions that the search comes to are there
  have hthere : ∀ name ∈ p.reached, ∃ f, p.function? name = some f ∧ f.name = name := by
    intro name hname
    have hmem : name ∈ p.functions.map Function.name := by
      induction (hreached name).mp hname with
      | refl => exact hp.1
      | tail h hcall ih => exact hp.2 _ (ih ((hreached _).mpr h)) hcall
    obtain ⟨f, hf, rfl⟩ := List.mem_map.mp hmem
    exact ⟨f, Fold.find?_key hscoped.names f hf, rfl⟩
  refine ⟨sameRuns_of_retains (· ∈ p.reached) hscoped hG rfl ((hreached _).mpr .refl)
    (fun name hname g hg => (hreached g).mpr (((hreached name).mp hname).tail hg)) fun name hname => ?_, fun name => ?_⟩
  · obtain ⟨f, hf, rfl⟩ := hthere name hname
    have hfind : p.dfs.find? (·.name = f.name) = some f := by
      refine find?_of_agrees p.functions (fun g hg => ?_) (List.mem_filterMap.mpr ⟨_, hname, hf⟩)
      obtain ⟨_, -, hg⟩ := List.mem_filterMap.mp hg
      exact Fold.find?_key hscoped.names g (Program.function?_mem hg)
    have hfind' : (orderFunctions p).function? f.name = some { f with blocks := f.dfs } := by
      rw [Program.function?, orderFunctions, List.find?_map]
      exact congrArg (Option.map _) hfind
    rw [hf, hfind']
    exact .some ⟨hname, rfl, rfl, rfl, block?_dfs⟩
  · rw [← hreached, orderFunctions, List.map_map, Program.dfs, List.mem_map]
    constructor
    · rintro ⟨f, hf, rfl⟩
      obtain ⟨name, hname, hf⟩ := List.mem_filterMap.mp hf
      obtain ⟨g, hg, rfl⟩ := hthere name hname
      obtain rfl := Option.some.inj (hf.symm.trans hg)
      exact hname
    · intro hname
      obtain ⟨f, hf, rfl⟩ := hthere name hname
      exact ⟨f, List.mem_filterMap.mpr ⟨_, hname, hf⟩, rfl⟩

/-- The last block goes. -/
theorem eliminate_sameRuns_sample :
    (eliminate sample).functions.map (fun f => f.blocks.map (·.label.id)) = [[0, 1, 2, 3]] ∧
    sample.SameRuns .idle sampleEnv (eliminate sample) :=
  ⟨by decide, (eliminate_sameRuns scoped_sample bound_sample).1⟩

theorem closed_sample : sample.Closed := ⟨by decide, by decide⟩

/-- The blocks are in the order of the search. -/
theorem orderFunctions_sameRuns_sample :
    (orderFunctions sample).functions.map (fun f => f.blocks.map (·.label.id)) = [[0, 1, 2, 3]] ∧
    sample.SameRuns .idle sampleEnv (orderFunctions sample) :=
  ⟨by decide, (orderFunctions_sameRuns scoped_sample bound_sample closed_sample).1⟩

end Runs

end Prepasses

end MLton.Ssa
