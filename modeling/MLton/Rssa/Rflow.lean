import MLton.Basic.PowersetLattice
import MLton.Rssa.HeapCovered

/-!
# Rssa/Rflow — where a function may return and raise to

`Program.rflow` gives each function the set of labels it may return to and the set of those it may raise to.
A call adds its continuation and its handler to the sets of the function it calls; a tail call passes on the
sets of the caller.
-/

namespace MLton.Rssa

open InsertChecks (Resolved)

/-- `main :: functions`. -/
def Program.all (p : Program) : List Function := p.main :: p.functions

/-- The blocks of all functions. -/
def Program.blocks (p : Program) : List Block := p.all.flatMap Function.blocks

/-- What the scope check of the type checker asks of labels, and that every function called is one of the
program's. -/
structure Program.Scoped (p : Program) : Prop where
  names : (p.all.map Function.name).Nodup
  labels : (p.blocks.map Block.label).Nodup
  resolved : ∀ f ∈ p.all, Resolved f
  calls : ∀ b ∈ p.blocks, ∀ args func ret, b.transfer = .call args func ret → func ∈ p.all.map Function.name

namespace Rflow

/-- The sets of a function. -/
inductive Point where
  | raisesTo (f : Func)
  | returnsTo (f : Func)
deriving DecidableEq, Repr

/-- What a call passes on: nothing, one label, or a set of its function. -/
inductive Source where
  | empty
  | singleton (l : Label)
  | point (v : Point)

/-- The sets, for labels. -/
abbrev Labels := PowersetLattice Point Label

/-- The points of the program. -/
def points (p : Program) : List Point := p.all.flatMap fun f => [.raisesTo f.name, .returnsTo f.name]

/-- `Labels.<=`.  A set made for one call gets no elements afterwards. -/
def le (k : ℕ) (s : Labels) : Source → Point → Option Labels
  | .empty, _ => some s
  | .singleton l, v => s.insert k l v
  | .point u, v => s.le k u v

/-- The values `returns` and `raises` of a call in the function `name`. -/
def sources (name : Func) : Return → Source × Source
  | .dead => (.empty, .empty)
  | .nonTail cont handler =>
    (.singleton cont,
      match handler with
      | .caller => .point (.raisesTo name)
      | .dead => .empty
      | .handle hand => .singleton hand)
  | .tail => (.point (.returnsTo name), .point (.raisesTo name))

/-- One block of the function `name`. -/
def block (k : ℕ) (name : Func) (s : Labels) (b : Block) : Option Labels :=
  match b.transfer with
  | .call _ func ret => do
    let s ← le k s (sources name ret).1 (.returnsTo func)
    le k s (sources name ret).2 (.raisesTo func)
  | _ => some s

end Rflow

open Rflow

/-- `Program.rflow`. -/
def Program.rflow (p : Program) : Option Labels :=
  p.all.foldlM (fun s f => f.blocks.foldlM (block ((points p).length + 1) f.name) s) .empty

/-! ## The sets hold labels of blocks -/

variable {p : Program}

theorem Program.mem_blocks {b : Block} : b ∈ p.blocks ↔ ∃ f ∈ p.all, b ∈ f.blocks := List.mem_flatMap

/-- A label that names a block of the program. -/
def Program.HasLabel (p : Program) (l : Label) : Prop := l ∈ p.blocks.map Block.label

theorem Program.Scoped.hasLabel (h : p.Scoped) {f : Function} (hf : f ∈ p.all) {l : Label} (hl : l ∈ f.labels) :
    p.HasLabel l := by
  obtain ⟨b, hb⟩ := Option.isSome_iff_exists.mp (h.resolved f hf l hl)
  rw [← Function.block?_label hb]
  exact List.mem_map_of_mem (Program.mem_blocks.mpr ⟨f, hf, Function.block?_mem hb⟩)

namespace Rflow

/-- A source that a call of a function of the program has. -/
def Source.Ok (p : Program) : Source → Prop
  | .singleton l => p.HasLabel l
  | _ => True

theorem exists_le {s : Labels} {src : Source} {v : Point} (hs : s.Within (points p) p.HasLabel)
    (hsrc : src.Ok p) (hv : v ∈ points p) :
    ∃ s', le ((points p).length + 1) s src v = some s' ∧ s'.Within (points p) p.HasLabel := by
  cases src with
  | empty => exact ⟨s, rfl, hs⟩
  | singleton l =>
    obtain ⟨s', hs', hgrown⟩ := PowersetLattice.exists_insert (E := p.HasLabel) hsrc ((points p).length + 1) hs hv
      (Nat.lt_succ_of_le PowersetLattice.lacking_le)
    exact ⟨s', hs', hgrown.within⟩
  | point u => exact PowersetLattice.exists_le hv hs

theorem sources_ok (name : Func) {ret : Return} (h : ∀ l ∈ ret.labels, p.HasLabel l) :
    (sources name ret).1.Ok p ∧ (sources name ret).2.Ok p := by
  cases ret with
  | dead => exact ⟨trivial, trivial⟩
  | tail => exact ⟨trivial, trivial⟩
  | nonTail cont handler =>
    refine ⟨h cont (List.mem_cons_self ..), ?_⟩
    cases handler with
    | caller => exact trivial
    | dead => exact trivial
    | handle l => exact h l (by simp [Return.labels, Handler.labels])

theorem exists_block (h : p.Scoped) {f : Function} (hf : f ∈ p.all) {b : Block} (hb : b ∈ f.blocks) {s : Labels}
    (hs : s.Within (points p) p.HasLabel) :
    ∃ s', block ((points p).length + 1) f.name s b = some s' ∧ s'.Within (points p) p.HasLabel := by
  have hlabels : ∀ l ∈ b.transfer.labels, p.HasLabel l := fun l hl => h.hasLabel hf
    (List.mem_cons_of_mem _ (List.mem_flatMap.mpr ⟨b, hb, List.mem_cons_of_mem _ hl⟩))
  have hcalls := h.calls b (Program.mem_blocks.mpr ⟨f, hf, hb⟩)
  unfold block
  cases htr : b.transfer with
  | call args func ret =>
    obtain ⟨g, hg, hname⟩ := List.mem_map.mp (hcalls args func ret htr)
    have hpoints : Point.returnsTo func ∈ points p ∧ Point.raisesTo func ∈ points p := by
      constructor <;> exact List.mem_flatMap.mpr ⟨g, hg, by simp [hname]⟩
    rw [htr] at hlabels
    obtain ⟨hret, hraise⟩ := sources_ok f.name hlabels
    obtain ⟨s₁, h₁, hs₁⟩ := exists_le hs hret hpoints.1
    obtain ⟨s₂, h₂, hs₂⟩ := exists_le hs₁ hraise hpoints.2
    exact ⟨s₂, by simp [h₁, h₂], hs₂⟩
  | _ => exact ⟨s, rfl, hs⟩

end Rflow

/-- **`rflow` ends, and its sets hold labels of blocks only.** -/
theorem Program.Scoped.exists_rflow (h : p.Scoped) :
    ∃ s, p.rflow = some s ∧ ∀ v, ∀ l ∈ s.elements v, p.HasLabel l := by
  obtain ⟨s, hs, hwithin⟩ := Fold.foldlM_inv (I := fun s : Labels => s.Within (points p) p.HasLabel)
    (l := p.all) (g := fun s f => f.blocks.foldlM (block ((points p).length + 1) f.name) s)
    (fun s f hf hs => Fold.foldlM_inv (fun s b hb hs => exists_block h hf hb hs) hs) PowersetLattice.Within.empty
  exact ⟨s, hs, hwithin.elements⟩

end MLton.Rssa
