import MLton.Lib.FlatLattice
import MLton.Rssa.Tree

/-!
# Rssa/ImplementHandlers — placing the stores to the exception stack and the handler slot

Before a call the exception stack must point at the local frame (or at the caller's) and the handler
slot must hold the right label.  `flow` runs a forward analysis on two flat lattices — what the
exception stack points at, what the handler slot holds — and stores only where the analysis does not
already know the value to be there.
-/

namespace MLton.Rssa.ImplementHandlers

open FlatLattice

/-- `Function.hasHandler`: some call of the function has a handler of its own. -/
def hasHandler (f : Function) : Bool :=
  f.blocks.any fun b =>
    match b.transfer with
    | .call _ _ (.nonTail _ (.handle _)) => true
    | _ => false

/-- `ExnStack.Point`: the exception stack points at the local frame, or where the slot says. -/
inductive ExnPoint where
  | locall
  | slot
deriving DecidableEq, Repr

/-- A lattice element: the one of a label, or `newPoint p`, which nothing is ever recorded below. -/
abbrev Cell (π : Type) := Label ⊕ π

/-- `labelInfo`: for each label, an element of each of the two lattices. -/
structure LabelInfo where
  global : Store (Cell ExnPoint) ExnPoint
  handler : Store (Cell Label) Label

/-- The store in which every label is still at the bottom. -/
def initStore (π : Type) : Store (Cell π) π where
  value := Sum.elim (fun _ => .bottom) .point
  lessThan _ := []

namespace LabelInfo

/-- `ExnStack.<=`, into the element of a label. -/
def exnStackLe (n : ℕ) (info : LabelInfo) (c : Cell ExnPoint) (l : Label) : LabelInfo :=
  { info with global := coerce n info.global c (.inl l) }

/-- `HandlerLat.<=`, into the element of a label. -/
def handlerLe (n : ℕ) (info : LabelInfo) (c : Cell Label) (l : Label) : LabelInfo :=
  { info with handler := coerce n info.handler c (.inl l) }

/-- `goto`: what holds at the end of block `src` holds at the start of `l`. -/
def goto (n : ℕ) (src : Label) (info : LabelInfo) (l : Label) : LabelInfo :=
  (info.exnStackLe n (.inl src) l).handlerLe n (.inl src) l

/-- `doit`: at `l` the frame's own handler `h` is installed. -/
def installed (n : ℕ) (h : Label) (info : LabelInfo) (l : Label) : LabelInfo :=
  (info.exnStackLe n (.inr .locall) l).handlerLe n (.inr h) l

end LabelInfo

/-- Entering the function: the exception stack is the caller's, the handler slot holds anything. -/
def visitStart (n : ℕ) (start : Label) (info : LabelInfo) (b : Block) : LabelInfo :=
  if b.label = start then
    let info := info.exnStackLe n (.inr .slot) b.label
    { info with handler := makeTop n info.handler (.inl b.label) }
  else info

/-- The constraints of one transfer. -/
def visitTransfer (n : ℕ) (label : Label) (info : LabelInfo) : Transfer → LabelInfo
  | .call _ _ .dead => info
  | .call _ _ (.nonTail cont .caller) =>
    (info.exnStackLe n (.inr .slot) cont).handlerLe n (.inl label) cont
  | .call _ _ (.nonTail cont .dead) => info.goto n label cont
  | .call _ _ (.nonTail cont (.handle l)) => (info.installed n l l).installed n l cont
  | .call _ _ .tail => info
  | t => t.labels.foldl (LabelInfo.goto n label) info

/-- One block of the analysis. -/
def visitBlock (n : ℕ) (start : Label) (info : LabelInfo) (b : Block) : LabelInfo :=
  visitTransfer n b.label (visitStart n start info b) b.transfer

/-- The bound on raises within one constraint: two for each label of the function. -/
def fuel (f : Function) : ℕ := 2 * f.labels.length + 1

/-- The analysis: what holds at the start of each block. -/
def analyze (f : Function) : LabelInfo :=
  f.blocks.foldl (visitBlock (fuel f) f.start) ⟨initStore ExnPoint, initStore Label⟩

section Rewrite

variable (info : LabelInfo) (label : Label)

/-- Restore the caller's exception stack, unless it is known to be in place. -/
def setExnStackSlot : List Statement :=
  if (info.global.value (.inl label)).isPointEq .slot then [] else [.setExnStackSlot]

/-- Point the exception stack at this frame, unless it is known to be in place. -/
def setExnStackLocal : List Statement :=
  if (info.global.value (.inl label)).isPointEq .locall then [] else [.setExnStackLocal]

/-- Store the handler, unless it is known to be in place. -/
def setHandler (l : Label) : List Statement :=
  if (info.handler.value (.inl label)).isPointEq l then [] else [.setHandler l]

/-- The stores a transfer needs. -/
def post : Transfer → List Statement
  | .call _ _ .dead => []
  | .call _ _ (.nonTail _ .caller) => setExnStackSlot info label
  | .call _ _ (.nonTail _ .dead) => []
  | .call _ _ (.nonTail _ (.handle l)) => setHandler info label l ++ setExnStackLocal info label
  | .call _ _ .tail => setExnStackSlot info label
  | .raise _ => setExnStackSlot info label
  | .ret _ => setExnStackSlot info label
  | _ => []

end Rewrite

/-- A block with its stores in place. -/
def rewriteBlock (info : LabelInfo) (b : Block) : Block :=
  { b with statements := b.statements ++ post info b.label b.transfer }

/-- The new first block, which saves the caller's exception stack. -/
def startBlock (newStart start : Label) : Block where
  args := []
  kind := .jump
  label := newStart
  statements := [.setSlotExnStack]
  transfer := .goto [] start

/-- `flow`: the function with its exception-stack and handler stores in place. -/
def flow (f : Function) : StateM Supply Function :=
  if hasHandler f then do
    let newStart ← Label.newNoname
    pure { f with
      blocks := f.blocks.map (rewriteBlock (analyze f)) ++ [startBlock newStart f.start]
      start := newStart }
  else pure f

/-- `transform`. -/
def transform (p : Program) : StateM Supply Program := do
  -- `List.revMap` visits the functions in order and leaves them reversed
  let functions ← p.functions.mapM flow
  let main ← flow p.main
  pure { p with functions := functions.reverse, main := main }

end MLton.Rssa.ImplementHandlers

/-!
## The exception stack is right at every call, raise and return

A frame sees three cells: the exception stack pointer, the slot that saves the caller's, and the
handler slot.  `Step` runs a function over them, block by block along any edge of its control-flow
graph.  `flow_slotsRight` says that after `ImplementHandlers.flow` the cells hold what each transfer
relies on, on every path.

The argument is the usual one for a forward analysis: `analyze` ends in a store respecting every
constraint of every block (`good_analyze`), so the value at a label is above the true contents of the
cells whenever control is there (`Sound`), and a store is dropped only where the analysis pins the
contents to a point.
-/

namespace MLton.Rssa

open FlatLattice

/-- The cells of one frame: what the exception stack points at, what the slot has saved and what the
handler slot holds. -/
structure ExnState (A : Type*) where
  exnStack : A
  slot : A
  handler : Option Label

section Exec

variable {A : Type*} (frame : A)

/-- One statement, in the frame at address `frame`. -/
def Statement.exec : Statement → ExnState A → ExnState A
  | setExnStackLocal, s => { s with exnStack := frame }
  | setExnStackSlot, s => { s with exnStack := s.slot }
  | setHandler l, s => { s with handler := some l }
  | setSlotExnStack, s => { s with slot := s.exnStack }
  | _, s => s

/-- The statements of a block, in order. -/
def execs (ss : List Statement) (s : ExnState A) : ExnState A :=
  ss.foldl (fun s st => st.exec frame s) s

@[simp] theorem execs_nil (s : ExnState A) : execs frame [] s = s := rfl

@[simp] theorem execs_cons (st : Statement) (ss : List Statement) (s : ExnState A) :
    execs frame (st :: ss) s = execs frame ss (st.exec frame s) := rfl

@[simp] theorem execs_append (ss ts : List Statement) (s : ExnState A) :
    execs frame (ss ++ ts) s = execs frame ts (execs frame ss s) := List.foldl_append ..

/-- **One block**: its statements run, then control follows an edge.  A callee that returns or raises
leaves the cells of the frame alone. -/
inductive Step (f : Function) : Label × ExnState A → Label × ExnState A → Prop where
  | edge {l l' : Label} {s : ExnState A} {b : Block} :
      f.block? l = some b → l' ∈ b.transfer.labels →
      Step f (l, s) (l', execs frame b.statements s)

/-- Any number of blocks. -/
abbrev Reaches (f : Function) : Label × ExnState A → Label × ExnState A → Prop :=
  Relation.ReflTransGen (Step frame f)

/-- **What a transfer relies on**, in a frame whose exception stack was `entry` on entry. -/
def SlotsRight (entry : A) : Transfer → ExnState A → Prop
  | .call _ _ (.nonTail _ (.handle l)), s => s.exnStack = frame ∧ s.handler = some l
  | .call _ _ (.nonTail _ .caller), s => s.exnStack = entry
  | .call _ _ .tail, s => s.exnStack = entry
  | .raise _, s => s.exnStack = entry
  | .ret _, s => s.exnStack = entry
  | _, _ => True

end Exec

/-- The statements only `ImplementHandlers` inserts. -/
def Statement.isExn : Statement → Bool
  | setExnStackLocal => true
  | setExnStackSlot => true
  | setHandler _ => true
  | setSlotExnStack => true
  | _ => false

/-- The function has not been through `ImplementHandlers` yet. -/
def Function.NoExnStatements (f : Function) : Prop :=
  ∀ b ∈ f.blocks, ∀ st ∈ b.statements, st.isExn = false

namespace ImplementHandlers

/-! ## The analysis respects every constraint -/

/-- The constraints a block's transfer puts on the exception stack. -/
def ExnStackConstraint (b : Block) (c d : Cell ExnPoint) : Prop :=
  match b.transfer with
  | .call _ _ (.nonTail cont .caller) => c = .inr .slot ∧ d = .inl cont
  | .call _ _ (.nonTail cont (.handle l)) => c = .inr .locall ∧ (d = .inl l ∨ d = .inl cont)
  | t => c = .inl b.label ∧ ∃ l ∈ t.labels, d = .inl l

/-- The constraints a block's transfer puts on the handler slot. -/
def HandlerConstraint (b : Block) (c d : Cell Label) : Prop :=
  match b.transfer with
  | .call _ _ (.nonTail cont .caller) => c = .inl b.label ∧ d = .inl cont
  | .call _ _ (.nonTail cont (.handle l)) => c = .inr l ∧ (d = .inl l ∨ d = .inl cont)
  | t => c = .inl b.label ∧ ∃ l ∈ t.labels, d = .inl l

/-- The cells a constraint can raise. -/
def cells (π : Type) (f : Function) : List (Cell π) := f.labels.map .inl

theorem mem_cells {π : Type} {f : Function} {l : Label} :
    (Sum.inl l : Cell π) ∈ cells π f ↔ l ∈ f.labels := by
  simp [cells]

theorem cells_lt_fuel (π : Type) (f : Function) : 2 * (cells π f).length < fuel f := by
  simp [cells, fuel]

/-- Both lattices respect the constraints recorded so far. -/
structure InfoGood (f : Function) (C : Cell ExnPoint → Cell ExnPoint → Prop)
    (D : Cell Label → Cell Label → Prop) (info : LabelInfo) : Prop where
  global : Good (cells ExnPoint f) C Quiet info.global
  handler : Good (cells Label f) D Quiet info.handler

/-- Values only move up. -/
def InfoLe (info info' : LabelInfo) : Prop :=
  (∀ c, info.global.value c ≤ info'.global.value c) ∧
    ∀ c, info.handler.value c ≤ info'.handler.value c

theorem InfoLe.refl (info : LabelInfo) : InfoLe info info := ⟨fun _ => le_rfl, fun _ => le_rfl⟩

theorem InfoLe.trans {i j k : LabelInfo} (h : InfoLe i j) (h' : InfoLe j k) : InfoLe i k :=
  ⟨fun c => (h.1 c).trans (h'.1 c), fun c => (h.2 c).trans (h'.2 c)⟩

variable {f : Function} {C : Cell ExnPoint → Cell ExnPoint → Prop}
  {D : Cell Label → Cell Label → Prop} {info : LabelInfo}

theorem InfoGood.exnStackLe (h : InfoGood f C D info) {l : Label} (hl : l ∈ f.labels)
    (c : Cell ExnPoint) :
    InfoGood f (fun a b => C a b ∨ (a = c ∧ b = .inl l)) D (info.exnStackLe (fuel f) c l) ∧
      InfoLe info (info.exnStackLe (fuel f) c l) := by
  obtain ⟨hgood, hle⟩ := coerce_spec (cells_lt_fuel ExnPoint f) (mem_cells.mpr hl) h.global
  exact ⟨⟨hgood, h.handler⟩, hle, fun _ => le_rfl⟩

theorem InfoGood.handlerLe (h : InfoGood f C D info) {l : Label} (hl : l ∈ f.labels)
    (c : Cell Label) :
    InfoGood f C (fun a b => D a b ∨ (a = c ∧ b = .inl l)) (info.handlerLe (fuel f) c l) ∧
      InfoLe info (info.handlerLe (fuel f) c l) := by
  obtain ⟨hgood, hle⟩ := coerce_spec (cells_lt_fuel Label f) (mem_cells.mpr hl) h.handler
  exact ⟨⟨h.global, hgood⟩, fun _ => le_rfl, hle⟩

/-- Both lattices at once, into one label. -/
theorem InfoGood.both (h : InfoGood f C D info) {l : Label} (hl : l ∈ f.labels)
    (c : Cell ExnPoint) (d : Cell Label) :
    InfoGood f (fun a b => C a b ∨ (a = c ∧ b = .inl l)) (fun a b => D a b ∨ (a = d ∧ b = .inl l))
        ((info.exnStackLe (fuel f) c l).handlerLe (fuel f) d l) ∧
      InfoLe info ((info.exnStackLe (fuel f) c l).handlerLe (fuel f) d l) := by
  obtain ⟨h1, hle1⟩ := h.exnStackLe hl c
  obtain ⟨h2, hle2⟩ := h1.handlerLe hl d
  exact ⟨h2, hle1.trans hle2⟩

/-- Fewer constraints are respected all the more. -/
theorem InfoGood.mono {C' : Cell ExnPoint → Cell ExnPoint → Prop}
    {D' : Cell Label → Cell Label → Prop} (h : InfoGood f C D info)
    (hC : ∀ a b, C' a b → C a b) (hD : ∀ a b, D' a b → D a b) : InfoGood f C' D' info where
  global := h.global.mono hC
  handler := h.handler.mono hD

/-- The edges of a transfer that passes both cells on unchanged. -/
theorem InfoGood.goto (src : Label) : ∀ (ls : List Label) {C : Cell ExnPoint → Cell ExnPoint → Prop}
    {D : Cell Label → Cell Label → Prop} {info : LabelInfo}, InfoGood f C D info →
    (∀ l ∈ ls, l ∈ f.labels) →
    InfoGood f (fun a b => C a b ∨ (a = .inl src ∧ ∃ l ∈ ls, b = .inl l))
        (fun a b => D a b ∨ (a = .inl src ∧ ∃ l ∈ ls, b = .inl l))
        (ls.foldl (LabelInfo.goto (fuel f) src) info) ∧
      InfoLe info (ls.foldl (LabelInfo.goto (fuel f) src) info)
  | [], _, _, _, h, _ => ⟨h.mono (by simp) (by simp), InfoLe.refl _⟩
  | l :: ls, _, _, _, h, hls => by
    obtain ⟨h1, hle1⟩ := h.both (hls l (by simp)) (.inl src) (.inl src)
    obtain ⟨h2, hle2⟩ := InfoGood.goto src ls h1 fun x hx => hls x (List.mem_cons_of_mem _ hx)
    refine ⟨h2.mono ?_ ?_, hle1.trans hle2⟩ <;>
    · rintro a b (hab | ⟨rfl, x, hx, rfl⟩)
      · exact Or.inl (Or.inl hab)
      · rcases List.mem_cons.mp hx with rfl | hx
        · exact Or.inl (Or.inr ⟨rfl, rfl⟩)
        · exact Or.inr ⟨rfl, x, hx, rfl⟩

/-- **A transfer's constraints are respected once it has been visited.** -/
theorem InfoGood.visitTransfer (h : InfoGood f C D info) (b : Block)
    (hls : ∀ l ∈ b.transfer.labels, l ∈ f.labels) :
    InfoGood f (fun c d => C c d ∨ ExnStackConstraint b c d)
        (fun c d => D c d ∨ HandlerConstraint b c d)
        (visitTransfer (fuel f) b.label info b.transfer) ∧
      InfoLe info (visitTransfer (fuel f) b.label info b.transfer) := by
  obtain ⟨args, kind, label, statements, transfer⟩ := b
  match transfer, hls with
  | .call _ _ (.nonTail cont .caller), hls =>
    exact h.both (hls cont (by simp [Transfer.labels, Return.labels])) (.inr .slot) (.inl label)
  | .call _ _ (.nonTail cont (.handle l)), hls =>
    have hcont := hls cont (by simp [Transfer.labels, Return.labels])
    have hl := hls l (by simp [Transfer.labels, Return.labels, Handler.labels])
    obtain ⟨h1, hle1⟩ := h.both hl (.inr .locall) (.inr l)
    obtain ⟨h2, hle2⟩ := h1.both hcont (.inr .locall) (.inr l)
    refine ⟨h2.mono ?_ ?_, hle1.trans hle2⟩ <;>
    · rintro c d (hcd | ⟨rfl, rfl | rfl⟩)
      · exact Or.inl (Or.inl hcd)
      · exact Or.inl (Or.inr ⟨rfl, rfl⟩)
      · exact Or.inr ⟨rfl, rfl⟩
  | .call args func .dead, hls => exact h.goto label [] hls
  | .call args func (.nonTail cont .dead), hls => exact h.goto label [cont] hls
  | .call args func .tail, hls => exact h.goto label [] hls
  | .ccall args func r, hls => exact h.goto label _ hls
  | .goto args dst, hls => exact h.goto label _ hls
  | .raise args, hls => exact h.goto label [] hls
  | .ret args, hls => exact h.goto label [] hls
  | .switch sw, hls => exact h.goto label _ hls

/-- What the analysis knows at the label control enters the function at. -/
structure StartKnown (start : Label) (info : LabelInfo) : Prop where
  global : .point .slot ≤ info.global.value (.inl start)
  handler : info.handler.value (.inl start) = .top

theorem StartKnown.mono {start : Label} {info' : LabelInfo} (h : StartKnown start info)
    (hle : InfoLe info info') : StartKnown start info' where
  global := h.global.trans (hle.1 _)
  handler := Value.top_le_iff.mp (h.handler ▸ hle.2 _)

/-- The elements `newPoint p` hold their points. -/
structure PointsKnown (info : LabelInfo) : Prop where
  global : ∀ p, .point p ≤ info.global.value (.inr p)
  handler : ∀ p, .point p ≤ info.handler.value (.inr p)

theorem PointsKnown.mono {info' : LabelInfo} (h : PointsKnown info) (hle : InfoLe info info') :
    PointsKnown info' where
  global p := (h.global p).trans (hle.1 _)
  handler p := (h.handler p).trans (hle.2 _)

/-- Visiting the first block makes its entry known. -/
theorem InfoGood.visitStart (h : InfoGood f C D info) (hp : PointsKnown info) (b : Block)
    (hb : b.label ∈ f.labels) :
    InfoGood f C D (visitStart (fuel f) f.start info b) ∧
      InfoLe info (visitStart (fuel f) f.start info b) ∧
      (b.label = f.start → StartKnown f.start (visitStart (fuel f) f.start info b)) := by
  by_cases hbs : b.label = f.start
  · obtain ⟨h1, hle1⟩ := h.exnStackLe hb (.inr .slot)
    have hslot := h1.global.holds (.inr .slot) (.inl b.label) (Or.inr ⟨rfl, rfl⟩) (fun hf => hf)
    obtain ⟨h2, hle2, htop⟩ := makeTop_spec (fuel f) Quiet
      (info.exnStackLe (fuel f) (.inr .slot) b.label).handler (.inl b.label)
      ((weight_le _ _).trans_lt (cells_lt_fuel Label f)) (mem_cells.mpr hb) h1.handler
    simp only [ImplementHandlers.visitStart, hbs, if_true] at h1 hle1 hslot h2 hle2 htop ⊢
    have hle : InfoLe info { info.exnStackLe (fuel f) (.inr .slot) f.start with
        handler := makeTop (fuel f) (info.exnStackLe (fuel f) (.inr .slot) f.start).handler
          (.inl f.start) } := ⟨hle1.1, fun c => (hle1.2 c).trans (hle2 c)⟩
    exact ⟨⟨h1.global.mono (fun _ _ hab => Or.inl hab), h2⟩, hle,
      fun _ => ⟨((hp.global .slot).trans (hle1.1 _)).trans hslot, htop⟩⟩
  · simpa [ImplementHandlers.visitStart, hbs] using ⟨h, InfoLe.refl info⟩

/-- **Every constraint of the visited blocks is respected after the fold.** -/
theorem InfoGood.visitBlocks : ∀ (bs : List Block) {C : Cell ExnPoint → Cell ExnPoint → Prop}
    {D : Cell Label → Cell Label → Prop} {info : LabelInfo}, InfoGood f C D info →
    PointsKnown info → (∀ b ∈ bs, b ∈ f.blocks) →
    InfoGood f (fun c d => C c d ∨ ∃ b ∈ bs, ExnStackConstraint b c d)
        (fun c d => D c d ∨ ∃ b ∈ bs, HandlerConstraint b c d)
        (bs.foldl (visitBlock (fuel f) f.start) info) ∧
      InfoLe info (bs.foldl (visitBlock (fuel f) f.start) info) ∧
      ∀ b ∈ bs, b.label = f.start →
        StartKnown f.start (bs.foldl (visitBlock (fuel f) f.start) info)
  | [], _, _, _, h, _, _ => ⟨h.mono (by simp) (by simp), InfoLe.refl _, by simp⟩
  | b :: bs, _, _, info, h, hp, hbs => by
    have hmem : ∀ l ∈ b.label :: b.transfer.labels, l ∈ f.labels := fun l hl =>
      List.mem_cons_of_mem _ (List.mem_flatMap.mpr ⟨b, hbs b (by simp), hl⟩)
    obtain ⟨h1, hle1, hstart⟩ := h.visitStart hp b (hmem _ (by simp))
    obtain ⟨h2, hle2⟩ := h1.visitTransfer b fun l hl => hmem l (List.mem_cons_of_mem _ hl)
    have hle12 : InfoLe info (visitBlock (fuel f) f.start info b) := hle1.trans hle2
    obtain ⟨h3, hle3, hstart3⟩ := InfoGood.visitBlocks bs h2 (hp.mono hle12)
      fun x hx => hbs x (List.mem_cons_of_mem _ hx)
    refine ⟨h3.mono ?_ ?_, hle12.trans hle3, fun x hx hxs => ?_⟩
    · rintro c d (hcd | ⟨x, hx, hcd⟩)
      · exact Or.inl (Or.inl hcd)
      · rcases List.mem_cons.mp hx with rfl | hx
        · exact Or.inl (Or.inr hcd)
        · exact Or.inr ⟨x, hx, hcd⟩
    · rintro c d (hcd | ⟨x, hx, hcd⟩)
      · exact Or.inl (Or.inl hcd)
      · rcases List.mem_cons.mp hx with rfl | hx
        · exact Or.inl (Or.inr hcd)
        · exact Or.inr ⟨x, hx, hcd⟩
    · rcases List.mem_cons.mp hx with rfl | hx
      · exact (hstart hxs).mono (hle2.trans hle3)
      · exact hstart3 x hx hxs

/-- **A solution of the analysis**: every block's constraints hold. -/
structure Solves (f : Function) (info : LabelInfo) : Prop where
  exnStack : ∀ b ∈ f.blocks, ∀ c d, ExnStackConstraint b c d →
    info.global.value c ≤ info.global.value d
  handler : ∀ b ∈ f.blocks, ∀ c d, HandlerConstraint b c d →
    info.handler.value c ≤ info.handler.value d
  points : PointsKnown info
  start : ∀ b ∈ f.blocks, b.label = f.start → StartKnown f.start info

/-- **The analysis ends in a solution** — in particular its recursion never runs out of fuel. -/
theorem solves_analyze (f : Function) : Solves f (analyze f) := by
  have hinit : InfoGood f (fun _ _ => False) (fun _ _ => False)
      ⟨initStore ExnPoint, initStore Label⟩ := ⟨good_init _ _, good_init _ _⟩
  have hpts : PointsKnown ⟨initStore ExnPoint, initStore Label⟩ :=
    ⟨fun _ => le_rfl, fun _ => le_rfl⟩
  obtain ⟨h, hle, hstart⟩ := hinit.visitBlocks f.blocks hpts fun _ hb => hb
  exact
    { exnStack := fun b hb c d hcd => h.global.holds c d (Or.inr ⟨b, hb, hcd⟩) (fun hf => hf)
      handler := fun b hb c d hcd => h.handler.holds c d (Or.inr ⟨b, hb, hcd⟩) (fun hf => hf)
      points := hpts.mono hle
      start := hstart }

/-! ## The analysis is above the true contents of the cells -/

section Sound

variable {A : Type*} {frame entry : A}

/-- What the exception stack holds, as a point of the lattice. -/
def Denotes (frame entry : A) : ExnPoint → A → Prop
  | .locall, a => a = frame
  | .slot, a => a = entry

/-- **The analysis is right about the cells at `l`**: each value is above the true contents, and the
slot still has the caller's exception stack. -/
structure Sound (frame entry : A) (info : LabelInfo) (l : Label) (s : ExnState A) : Prop where
  exnStack : ∃ p, .point p ≤ info.global.value (.inl l) ∧ Denotes frame entry p s.exnStack
  handler : info.handler.value (.inl l) = .top ∨
    ∃ q, s.handler = some q ∧ .point q ≤ info.handler.value (.inl l)
  slot : s.slot = entry

theorem Sound.setExnStackSlot {l : Label} {s : ExnState A} (h : Sound frame entry info l s) :
    execs frame (setExnStackSlot info l) s = { s with exnStack := entry } := by
  obtain ⟨p, hp, hden⟩ := h.exnStack
  unfold ImplementHandlers.setExnStackSlot
  split
  case isTrue heq =>
    rw [Value.isPointEq_iff.mp heq, Value.point_le_point] at hp
    subst hp
    exact congrArg (fun a => { s with exnStack := a }) hden
  case isFalse => simp [Statement.exec, h.slot]

theorem execs_setExnStackLocal {l : Label} {s : ExnState A}
    (h : ∃ p, .point p ≤ info.global.value (.inl l) ∧ Denotes frame entry p s.exnStack) :
    execs frame (setExnStackLocal info l) s = { s with exnStack := frame } := by
  obtain ⟨p, hp, hden⟩ := h
  unfold ImplementHandlers.setExnStackLocal
  split
  case isTrue heq =>
    rw [Value.isPointEq_iff.mp heq, Value.point_le_point] at hp
    subst hp
    exact congrArg (fun a => { s with exnStack := a }) hden
  case isFalse => simp [Statement.exec]

theorem Sound.setHandler {l h : Label} {s : ExnState A} (hs : Sound frame entry info l s) :
    execs frame (setHandler info l h) s = { s with handler := some h } := by
  unfold ImplementHandlers.setHandler
  split
  case isTrue heq =>
    have hval := Value.isPointEq_iff.mp heq
    rcases hs.handler with htop | ⟨q, hq, hle⟩
    · simp [hval] at htop
    · rw [hval, Value.point_le_point] at hle
      subst hle
      exact congrArg (fun a => { s with handler := a }) hq
  case isFalse => simp [Statement.exec]

/-- Contents right at one label are right at any label above it. -/
theorem Sound.of_le {l l' : Label} {s : ExnState A} (h : Sound frame entry info l s)
    (hg : info.global.value (.inl l) ≤ info.global.value (.inl l'))
    (hh : info.handler.value (.inl l) ≤ info.handler.value (.inl l')) :
    Sound frame entry info l' s where
  exnStack := by
    obtain ⟨p, hp, hden⟩ := h.exnStack
    exact ⟨p, hp.trans hg, hden⟩
  handler := by
    rcases h.handler with htop | ⟨q, hq, hle⟩
    · exact Or.inl (Value.top_le_iff.mp (htop ▸ hh))
    · exact Or.inr ⟨q, hq, hle.trans hh⟩
  slot := h.slot

/-- The frame's own handler `h` is installed at `l`. -/
theorem Sound.of_installed {l h : Label} {s : ExnState A} (hslot : s.slot = entry)
    (hg : .point .locall ≤ info.global.value (.inl l))
    (hh : .point h ≤ info.handler.value (.inl l)) :
    Sound frame entry info l { s with exnStack := frame, handler := some h } where
  exnStack := ⟨.locall, hg, rfl⟩
  handler := Or.inr ⟨h, rfl, hh⟩
  slot := hslot

/-- **The stores of a block are enough**: the transfer finds the cells it relies on, and the
analysis is right about every target. -/
theorem Sound.post {b : Block} {s : ExnState A} (hb : b ∈ f.blocks) (hsol : Solves f info)
    (h : Sound frame entry info b.label s) :
    SlotsRight frame entry b.transfer (execs frame (post info b.label b.transfer) s) ∧
      ∀ l ∈ b.transfer.labels,
        Sound frame entry info l (execs frame (post info b.label b.transfer) s) := by
  have hE := hsol.exnStack b hb
  have hH := hsol.handler b hb
  obtain ⟨args, kind, label, statements, transfer⟩ := b
  -- the transfers that pass both cells on as they are
  have hpass (hE : ∀ l ∈ transfer.labels, info.global.value (.inl label) ≤ info.global.value (.inl l))
      (hH : ∀ l ∈ transfer.labels, info.handler.value (.inl label) ≤ info.handler.value (.inl l)) :
      ∀ l ∈ transfer.labels, Sound frame entry info l s := fun l hl =>
    h.of_le (hE l hl) (hH l hl)
  match transfer, hpass, hE, hH with
  | .call zs g (.nonTail cont .caller), _, hE, hH =>
    have hexec : execs frame (ImplementHandlers.post info label
        (.call zs g (.nonTail cont .caller))) s = { s with exnStack := entry } := h.setExnStackSlot
    rw [hexec]
    refine ⟨rfl, fun l hl => ?_⟩
    obtain rfl : l = cont := by simpa [Transfer.labels, Return.labels, Handler.labels] using hl
    have hle : info.handler.value (.inl label) ≤ info.handler.value (.inl l) := hH _ _ ⟨rfl, rfl⟩
    exact
      { exnStack := ⟨.slot, (hsol.points.global .slot).trans (hE _ _ ⟨rfl, rfl⟩), rfl⟩
        handler := h.handler.imp (fun ht => Value.top_le_iff.mp (ht.symm.trans_le hle))
          fun ⟨q, hq, hq'⟩ => ⟨q, hq, hq'.trans hle⟩
        slot := h.slot }
  | .call zs g (.nonTail cont (.handle hl)), _, hE, hH =>
    have hexec : execs frame (ImplementHandlers.post info label
        (.call zs g (.nonTail cont (.handle hl)))) s =
          { s with exnStack := frame, handler := some hl } := by
      rw [show ImplementHandlers.post info label (.call zs g (.nonTail cont (.handle hl)))
          = ImplementHandlers.setHandler info label hl ++ setExnStackLocal info label from rfl, execs_append,
        h.setHandler]
      exact execs_setExnStackLocal (s := { s with handler := some hl }) h.exnStack
    rw [hexec]
    refine ⟨⟨rfl, rfl⟩, fun l hl' => ?_⟩
    have hl'' : l = hl ∨ l = cont := by
      simpa [Transfer.labels, Return.labels, Handler.labels, or_comm] using hl'
    exact Sound.of_installed h.slot
      ((hsol.points.global .locall).trans (hE _ _ ⟨rfl, by simpa using hl''⟩))
      ((hsol.points.handler hl).trans (hH _ _ ⟨rfl, by simpa using hl''⟩))
  | .call _ _ .dead, _, _, _ => exact ⟨trivial, by simp [Transfer.labels, Return.labels]⟩
  | .call _ _ .tail, _, _, _ =>
    exact ⟨congrArg ExnState.exnStack h.setExnStackSlot,
      by simp [Transfer.labels, Return.labels]⟩
  | .raise _, _, _, _ =>
    exact ⟨congrArg ExnState.exnStack h.setExnStackSlot, by simp [Transfer.labels]⟩
  | .ret _, _, _, _ =>
    exact ⟨congrArg ExnState.exnStack h.setExnStackSlot, by simp [Transfer.labels]⟩
  | .call zs g (.nonTail cont .dead), hpass, hE, hH =>
    exact ⟨trivial, hpass (fun l hl => hE _ _ ⟨rfl, l, hl, rfl⟩)
      fun l hl => hH _ _ ⟨rfl, l, hl, rfl⟩⟩
  | .ccall _ _ _, hpass, hE, hH =>
    exact ⟨trivial, hpass (fun l hl => hE _ _ ⟨rfl, l, hl, rfl⟩)
      fun l hl => hH _ _ ⟨rfl, l, hl, rfl⟩⟩
  | .goto _ _, hpass, hE, hH =>
    exact ⟨trivial, hpass (fun l hl => hE _ _ ⟨rfl, l, hl, rfl⟩)
      fun l hl => hH _ _ ⟨rfl, l, hl, rfl⟩⟩
  | .switch _, hpass, hE, hH =>
    exact ⟨trivial, hpass (fun l hl => hE _ _ ⟨rfl, l, hl, rfl⟩)
      fun l hl => hH _ _ ⟨rfl, l, hl, rfl⟩⟩

end Sound

/-! ## The rewritten function -/

/-- Before the pass a block's own statements leave the cells alone. -/
theorem execs_eq_self {A : Type*} (frame : A) : ∀ (ss : List Statement) (s : ExnState A),
    (∀ st ∈ ss, st.isExn = false) → execs frame ss s = s
  | [], _, _ => rfl
  | st :: ss, s, h => by
    have hst : st.exec frame s = s := by
      have := h st (by simp)
      cases st <;> first | rfl | simp [Statement.isExn] at this
    rw [execs_cons, hst]
    exact execs_eq_self frame ss s fun x hx => h x (List.mem_cons_of_mem _ hx)

/-- A label of the input names its rewritten block, any other label only the new first block. -/
theorem block?_rewrite (f : Function) (info : LabelInfo) (newStart l : Label) :
    Function.block? { f with
      blocks := f.blocks.map (rewriteBlock info) ++ [startBlock newStart f.start]
      start := newStart } l =
    ((f.block? l).map (rewriteBlock info)).or
      (if newStart = l then some (startBlock newStart f.start) else none) := by
  have hcomp : ((fun b : Block => decide (b.label = l)) ∘ rewriteBlock info)
      = fun b : Block => decide (b.label = l) := rfl
  simp only [Function.block?, List.find?_append, List.find?_map, hcomp, List.find?_singleton,
    startBlock, decide_eq_true_eq]

theorem mem_labels_of_block? {f : Function} {l : Label} {b : Block} (h : f.block? l = some b) :
    l ∈ f.labels := by
  refine List.mem_cons_of_mem _ (List.mem_flatMap.mpr ⟨b, Function.block?_mem h, ?_⟩)
  simp [Function.block?_label h]

theorem target_mem_labels {f : Function} {l l' : Label} {b : Block} (h : f.block? l = some b)
    (hl' : l' ∈ b.transfer.labels) : l' ∈ f.labels :=
  List.mem_cons_of_mem _
    (List.mem_flatMap.mpr ⟨b, Function.block?_mem h, List.mem_cons_of_mem _ hl'⟩)

section Flow

variable {A : Type*} {f : Function} {frame : A} {s₀ : ExnState A} {newStart : Label}

/-- The function `flow` returns when it has something to do. -/
abbrev rewrite (f : Function) (newStart : Label) : Function :=
  { f with
    blocks := f.blocks.map (rewriteBlock (analyze f)) ++ [startBlock newStart f.start]
    start := newStart }

/-- **What holds whenever control reaches a label**: at the new start nothing has run yet; elsewhere
the analysis is right about the cells. -/
inductive Holds (f : Function) (frame : A) (newStart : Label) (s₀ : ExnState A) :
    Label × ExnState A → Prop where
  | start : Holds f frame newStart s₀ (newStart, s₀)
  | block {l : Label} {s : ExnState A} : l ∈ f.labels →
      (∀ b, f.block? l = some b → Sound frame s₀.exnStack (analyze f) l s) →
      Holds f frame newStart s₀ (l, s)

/-- A block of the rewritten function is the new first block or a rewritten old one; in the latter
case its transfer finds the right slots, and every target is sound again. -/
theorem Holds.transfer (hset : f.NoExnStatements) (hnew : newStart ∉ f.labels) {l : Label}
    {s : ExnState A} {b : Block} (h : Holds f frame newStart s₀ (l, s))
    (hb : (rewrite f newStart).block? l = some b) :
    SlotsRight frame s₀.exnStack b.transfer (execs frame b.statements s) ∧
      ∀ l' ∈ b.transfer.labels, Holds f frame newStart s₀ (l', execs frame b.statements s) := by
  rw [block?_rewrite] at hb
  cases h with
  | start =>
    have hnone : f.block? newStart = none :=
      Option.eq_none_iff_forall_ne_some.mpr fun b hb => hnew (mem_labels_of_block? hb)
    obtain rfl : startBlock newStart f.start = b := by simpa [hnone] using hb
    refine ⟨trivial, fun l' hl' => ?_⟩
    obtain rfl : l' = f.start := by simpa [startBlock, Transfer.labels] using hl'
    refine .block (by simp [Function.labels]) fun b hb => ?_
    have hstart := (solves_analyze f).start b (Function.block?_mem hb) (Function.block?_label hb)
    exact ⟨⟨.slot, hstart.global, rfl⟩, Or.inl hstart.handler, rfl⟩
  | block hl hsound =>
    have hne : newStart ≠ l := fun h => hnew (h ▸ hl)
    rw [if_neg hne, Option.or_none, Option.map_eq_some_iff] at hb
    obtain ⟨b, hb, rfl⟩ := hb
    have hmem := Function.block?_mem hb
    have hs : Sound frame s₀.exnStack (analyze f) b.label s := by
      rw [Function.block?_label hb]
      exact hsound b hb
    obtain ⟨hslots, hnext⟩ := hs.post hmem (solves_analyze f)
    simp only [rewriteBlock, execs_append, execs_eq_self frame b.statements s (hset b hmem)]
    exact ⟨hslots, fun l' hl' => .block (target_mem_labels hb hl') fun _ _ => hnext l' hl'⟩

/-- **It holds along every path.** -/
theorem Holds.reaches (hset : f.NoExnStatements) (hnew : newStart ∉ f.labels)
    {c : Label × ExnState A} (hreach : Reaches frame (rewrite f newStart) (newStart, s₀) c) :
    Holds f frame newStart s₀ c := by
  induction hreach with
  | refl => exact .start
  | tail _ hstep ih =>
    cases hstep with
    | edge hb hl' => exact (ih.transfer hset hnew hb).2 _ hl'

end Flow

/-- With no handler in the function, no call needs one. -/
theorem slotsRight_of_not_hasHandler {A : Type*} {f : Function} (h : hasHandler f = false)
    {frame entry : A} {b : Block} (hb : b ∈ f.blocks) {s : ExnState A} (hs : s.exnStack = entry) :
    SlotsRight frame entry b.transfer s := by
  have hno := List.any_eq_false.mp h b hb
  obtain ⟨args, kind, label, statements, transfer⟩ := b
  match transfer, hno with
  | .call _ _ (.nonTail _ (.handle _)), hno => exact absurd rfl hno
  | .call _ _ (.nonTail _ .caller), _ => exact hs
  | .call _ _ (.nonTail _ .dead), _ => exact trivial
  | .call _ _ .tail, _ => exact hs
  | .call _ _ .dead, _ => exact trivial
  | .raise _, _ => exact hs
  | .ret _, _ => exact hs
  | .ccall _ _ _, _ => exact trivial
  | .goto _ _, _ => exact trivial
  | .switch _, _ => exact trivial

/-- A function the pass leaves alone never touches its cells. -/
theorem reaches_eq_self {A : Type*} {f : Function} (hset : f.NoExnStatements) {frame : A}
    {c c' : Label × ExnState A} (h : Reaches frame f c c') : c'.2 = c.2 := by
  induction h with
  | refl => rfl
  | tail _ hstep ih =>
    cases hstep with
    | edge hb _ => exact (execs_eq_self frame _ _ (hset _ (Function.block?_mem hb))).trans ih

end ImplementHandlers

open ImplementHandlers

/-- **The exception stack and the handler slot are right at every transfer**, on every path through
the function `ImplementHandlers.flow` returns, whatever the cells held on entry. -/
theorem flow_slotsRight {A : Type*} (f : Function) (next : Supply) (hset : f.NoExnStatements)
    (hfresh : ∀ l ∈ f.labels, l.id < next) (frame : A) (s₀ : ExnState A) {l : Label}
    {s : ExnState A} {b : Block}
    (hreach : Reaches frame (flow f next).1 ((flow f next).1.start, s₀) (l, s))
    (hb : (flow f next).1.block? l = some b) :
    SlotsRight frame s₀.exnStack b.transfer (execs frame b.statements s) := by
  cases hf : hasHandler f with
  | false =>
    have hflow : (flow f next).1 = f := by
      unfold flow
      rw [if_neg (by simp [hf])]
      rfl
    rw [hflow] at hreach hb
    have hmem := Function.block?_mem hb
    have hs : s = s₀ := reaches_eq_self hset hreach
    rw [execs_eq_self frame _ _ (hset b hmem), hs]
    exact slotsRight_of_not_hasHandler hf hmem rfl
  | true =>
    have hflow : (flow f next).1 = rewrite f ⟨next⟩ := by
      unfold flow
      rw [if_pos hf]
      rfl
    rw [hflow] at hreach hb
    have hnew : (⟨next⟩ : Label) ∉ f.labels := fun h => Nat.lt_irrefl _ (hfresh _ h)
    exact ((Holds.reaches hset hnew hreach).transfer hset hnew hb).1

/-- A call whose exceptions go to block 2. -/
def handledCall : Transfer := .call [] ⟨1⟩ (.nonTail ⟨1⟩ (.handle ⟨2⟩))

/-- A function whose handler makes the call again: the second time nothing needs to be stored. -/
def handlerLoop : Function where
  args := []
  blocks :=
    [ ⟨[], .jump, ⟨0⟩, [], handledCall⟩,
      ⟨[], .cont (.handle ⟨2⟩), ⟨1⟩, [], .ret []⟩,
      ⟨[], .handler, ⟨2⟩, [], handledCall⟩ ]
  name := ⟨0⟩
  raises := none
  returns := some []
  start := ⟨0⟩

theorem handlerLoop_slotsRight :
    SlotsRight true false handledCall
      ({ exnStack := true, slot := false, handler := some ⟨2⟩ } : ExnState Bool) := by
  have hentry : (⟨0⟩ : Label) ∈ (startBlock ⟨3⟩ ⟨0⟩).transfer.labels := List.mem_singleton_self _
  have hraised : (⟨2⟩ : Label) ∈ handledCall.labels := by decide
  have hreach : Reaches true (flow handlerLoop 3).1
      (⟨3⟩, { exnStack := false, slot := true, handler := none })
      (⟨2⟩, { exnStack := true, slot := false, handler := some ⟨2⟩ }) :=
    (Relation.ReflTransGen.refl.tail (.edge (b := startBlock ⟨3⟩ ⟨0⟩) rfl hentry)).tail
      (.edge (b := rewriteBlock (analyze handlerLoop) ⟨[], .jump, ⟨0⟩, [], handledCall⟩) rfl hraised)
  exact flow_slotsRight handlerLoop 3 (by simp [handlerLoop, Function.NoExnStatements])
    (by decide) true _ hreach
    (b := rewriteBlock (analyze handlerLoop) ⟨[], .handler, ⟨2⟩, [], handledCall⟩) rfl

end MLton.Rssa
