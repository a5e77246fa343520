import MLton.Ssa.Detours

/-!
# Ssa/CriticalEdges — every critical edge gets a block of its own

An edge is critical if it leaves a block with two or more successors and enters a block with two or more predecessors.
`breakFunction` sends each of them through a new block that passes its formals on, so that no edge is critical any more
(`breakCriticalEdges_none`) and the program runs as before (`breakCriticalEdges_sameRuns`).
-/

namespace MLton.Ssa

open MLton.Effects MLton.Simulation

/-! ## Replacing labels -/

section ReplaceLabel

variable {m : Type → Type} [Monad m]

/-- `Handler.map`, with an action. -/
def Handler.mapLabel (fl : Label → m Label) : Handler → m Handler
  | .caller => pure .caller
  | .dead => pure .dead
  | .handle l => return .handle (← fl l)

/-- `Return.map`, with an action. -/
def Return.mapLabel (fl : Label → m Label) : Return → m Return
  | .dead => pure .dead
  | .nonTail cont handler => do
    let cont ← fl cont
    let handler ← Handler.mapLabel fl handler
    return .nonTail cont handler
  | .tail => pure .tail

/-- The arms of `Cases.map`, with an action. -/
def armsMapLabel {κ : Type} (fl : Label → m Label) (cs : List (κ × Label)) : m (List (κ × Label)) :=
  cs.mapM fun arm => do return (arm.1, ← fl arm.2)

/-- `Cases.map`, with an action. -/
def Cases.mapLabel (fl : Label → m Label) : Cases → m Cases
  | .con cs => return .con (← armsMapLabel fl cs)
  | .word size cs => return .word size (← armsMapLabel fl cs)

/-- `Transfer.replaceLabel`, with an action. -/
def Transfer.replaceLabel (fl : Label → m Label) : Transfer → m Transfer
  | .bug => pure .bug
  | .call args func k => return .call args func (← Return.mapLabel fl k)
  | .case test cases default => do
    let cases ← cases.mapLabel fl
    let default ← default.mapM fl
    return .case test cases default
  | .goto dst args => return .goto (← fl dst) args
  | .raise xs => pure (.raise xs)
  | .ret xs => pure (.ret xs)
  | .runtime prim args l => return .runtime prim args (← fl l)

end ReplaceLabel

namespace CriticalEdges

/-! ## The pass -/

section Info

variable (f : Function) (l : Label)

/-- `argsLabel`; the label is one of a block. -/
def argsLabel : List (Var × Ty) := ((f.block? l).map Block.args).getD []

/-- `inDeg`, as the loop over the blocks leaves it. -/
def inDeg : ℕ := f.blocks.foldl (fun n b => b.transfer.labels.foldl (fun n l' => if l' = l then n + 1 else n) n) 0

/-- `outDeg`, as the loop over the blocks leaves it. -/
def outDeg : ℕ := f.blocks.foldl (fun n b => b.transfer.labels.foldl (fun n _ => if b.label = l then n + 1 else n) n) 0

end Info

/-- Whether edges from the transfer are in the way of code motion. -/
def mustBreakTransfer : Transfer → Bool
  | .bug | .goto _ _ | .raise _ | .ret _ => false
  | _ => true

/-- `mustBreak`. -/
def mustBreak (f : Function) (l : Label) : Bool := ((f.block? l).map fun b => mustBreakTransfer b.transfer).getD false

/-- The reference `newBlocks`, and the names not used yet. -/
structure Added where
  newBlocks : List Block
  next : ℕ

/-- Draw a name. -/
def draw {α : Type} (x : StateM Supply α) : StateM Added α := fun st =>
  ((x st.next).1, { st with next := (x st.next).2 })

/-- A block that passes its formals on. -/
def etaBlock (l l' : Label) (args : List (Var × Ty)) : Block where
  args := args
  label := l'
  statements := []
  transfer := .goto l (args.map Prod.fst)

/-- `newBlock`. -/
def newBlock (f : Function) (l : Label) : StateM Added Label := do
  let l' ← draw Label.newNoname
  let args ← draw ((argsLabel f l).mapM fun arg => do return (← Var.newNoname, arg.2))
  modify fun st => { st with newBlocks := etaBlock l l' args :: st.newBlocks }
  return l'

/-- Whether the edges from a block are to be broken. -/
def breaks (codeMotion : Bool) (f : Function) (l : Label) : Bool := codeMotion && mustBreak f l || decide (2 ≤ outDeg f l)

/-- What becomes of a block. -/
def breakBlock (codeMotion : Bool) (f : Function) (b : Block) : StateM Added Block :=
  if breaks codeMotion f b.label then do
    let transfer ← b.transfer.replaceLabel fun l => if 1 < inDeg f l then newBlock f l else pure l
    return { b with transfer := transfer }
  else pure b

/-- `breakFunction`. -/
def breakFunction (codeMotion : Bool) (f : Function) : StateM Supply Function := fun n =>
  let (blocks, st) := (f.blocks.mapM (breakBlock codeMotion f)).run ⟨[], n⟩
  ({ f with blocks := blocks ++ st.newBlocks }, st.next)

/-- `breakCriticalEdges`. -/
def breakCriticalEdges (codeMotion : Bool) (p : Program) : StateM Supply Program := do
  let functions ← p.functions.mapM (breakFunction codeMotion)
  return { p with functions := functions.reverse }

/-! ## One transfer -/

section Threads

open Fold

variable {σ : Type} {P : σ → Label → Label → σ → Prop} {fl : Label → StateM σ Label} {R : Label → Label → Prop}

/-- Transfers that differ in their labels only. -/
structure Shaped (tr tr' : Transfer) : Prop where
  mustBreak : mustBreakTransfer tr' = mustBreakTransfer tr
  relabels : ∀ {R : Label → Label → Prop}, List.Forall₂ R tr.labels tr'.labels → tr.Relabels R tr'

theorem threaded_arms {κ : Type} (hP : ∀ s l, P s l ((fl l).run s).1 ((fl l).run s).2) (cs : List (κ × Label)) (s : σ) :
    Threaded P s (cs.map Prod.snd) (((armsMapLabel fl cs).run s).1.map Prod.snd) ((armsMapLabel fl cs).run s).2 ∧
      ((armsMapLabel fl cs).run s).1.map Prod.fst = cs.map Prod.fst := by
  induction cs generalizing s with
  | nil => exact ⟨.nil s, rfl⟩
  | cons c cs ih =>
    obtain ⟨h, hfst⟩ := ih ((fl c.2).run s).2
    rw [armsMapLabel, List.mapM_cons]
    exact ⟨.cons (hP s c.2) h, congrArg (c.1 :: ·) hfst⟩

theorem forall₂_arms {κ : Type} : ∀ {cs cs' : List (κ × Label)}, cs'.map Prod.fst = cs.map Prod.fst →
    List.Forall₂ R (cs.map Prod.snd) (cs'.map Prod.snd) →
      List.Forall₂ (fun arm arm' => arm'.1 = arm.1 ∧ R arm.2 arm'.2) cs cs'
  | [], [], _, _ => .nil
  | _ :: _, _ :: _, hfst, h => by
    obtain ⟨hR, h⟩ := List.forall₂_cons.mp h
    obtain ⟨hk, hfst⟩ := List.cons.inj hfst
    exact .cons ⟨hk, hR⟩ (forall₂_arms hfst h)

/-- Related lists in two parts, the first as long on both sides. -/
theorem forall₂_split {as bs as' bs' : List Label} (hlen : as.length = as'.length)
    (h : List.Forall₂ R (as ++ bs) (as' ++ bs')) : List.Forall₂ R as as' ∧ List.Forall₂ R bs bs' := by
  refine ⟨?_, ?_⟩
  · simpa [hlen] using List.forall₂_take as.length h
  · simpa [hlen] using List.forall₂_drop as.length h

/-- **The labels of a transfer are replaced one after the other**, and nothing else is. -/
theorem threaded_replaceLabel (hP : ∀ s l, P s l ((fl l).run s).1 ((fl l).run s).2) (tr : Transfer) (s : σ) :
    Threaded P s tr.labels ((tr.replaceLabel fl).run s).1.labels ((tr.replaceLabel fl).run s).2 ∧
      Shaped tr ((tr.replaceLabel fl).run s).1 := by
  cases tr with
  | bug => exact ⟨.nil s, rfl, fun _ => .bug⟩
  | raise xs => exact ⟨.nil s, rfl, fun _ => .raise xs⟩
  | ret xs => exact ⟨.nil s, rfl, fun _ => .ret xs⟩
  | goto dst args => exact ⟨.single (hP s dst), rfl, fun h => .goto (List.forall₂_cons.mp h).1⟩
  | runtime prim args l => exact ⟨.single (hP s l), rfl, fun h => .runtime (List.forall₂_cons.mp h).1⟩
  | call args func k =>
    cases k with
    | dead => exact ⟨.nil s, rfl, fun _ => .call .dead⟩
    | tail => exact ⟨.nil s, rfl, fun _ => .call .tail⟩
    | nonTail cont handler =>
      have hcont := hP s cont
      cases handler with
      | caller =>
        exact ⟨.single hcont, rfl, fun h => .call (.nonTail (List.forall₂_cons.mp h).1 .caller)⟩
      | dead => exact ⟨.single hcont, rfl, fun h => .call (.nonTail (List.forall₂_cons.mp h).1 .dead)⟩
      | handle l =>
        refine ⟨.cons hcont (.single (hP _ l)), rfl, fun h => ?_⟩
        obtain ⟨hR, h⟩ := List.forall₂_cons.mp h
        exact .call (.nonTail hR (.handle (List.forall₂_cons.mp h).1))
  | case test cases default =>
    have hdefault : ∀ s, Threaded P s default.toList ((default.mapM fl).run s).1.toList ((default.mapM fl).run s).2 := by
      cases default with
      | none => exact fun s => .nil s
      | some l => exact fun s => .single (hP s l)
    have hrel : ∀ {s} {R : Label → Label → Prop}, List.Forall₂ R default.toList ((default.mapM fl).run s).1.toList →
        Option.Rel R default ((default.mapM fl).run s).1 := by
      cases default with
      | none => exact fun _ => .none
      | some l => exact fun h => .some (List.forall₂_cons.mp h).1
    cases cases with
    | con cs =>
      obtain ⟨h, hfst⟩ := threaded_arms hP cs s
      refine ⟨h.append (hdefault _), rfl, fun hR => ?_⟩
      obtain ⟨hcs, hd⟩ := forall₂_split h.length_eq hR
      exact .case (.con (forall₂_arms hfst hcs)) (hrel hd)
    | word size cs =>
      obtain ⟨h, hfst⟩ := threaded_arms hP cs s
      refine ⟨h.append (hdefault _), rfl, fun hR => ?_⟩
      obtain ⟨hcs, hd⟩ := forall₂_split h.length_eq hR
      exact .case (.word (forall₂_arms hfst hcs)) (hrel hd)

end Threads

/-! ## One new block -/

/-- The block that stands for an edge. -/
def added (f : Function) (l : Label) (n : ℕ) : Block := etaBlock l ⟨n⟩ (freshArgs (argsLabel f l) (n + 1))

theorem run_newBlock (f : Function) (l : Label) (st : Added) : (newBlock f l).run st =
    (⟨st.next⟩, ⟨added f l st.next :: st.newBlocks, st.next + 1 + (argsLabel f l).length⟩) := by
  have hargs := run_freshArgs (argsLabel f l) (st.next + 1)
  change ((⟨st.next⟩ : Label), Added.mk (etaBlock l ⟨st.next⟩
    (StateT.run (List.mapM _ (argsLabel f l)) (st.next + 1) : Id _).1 :: st.newBlocks)
    (StateT.run (List.mapM _ (argsLabel f l)) (st.next + 1) : Id _).2) = _
  rw [hargs]
  rfl

/-! ## All the edges -/

open Fold

section Edges

variable {codeMotion : Bool} {f : Function} {s s' : Added} {ls ls' : List Label} {l l' : Label} {b b' : Block}

/-- The edge gets a block. -/
def Breaks (f : Function) (s : Added) (l l' : Label) (s' : Added) : Prop :=
  1 < inDeg f l ∧ l' = ⟨s.next⟩ ∧ s' = ⟨added f l s.next :: s.newBlocks, s.next + 1 + (argsLabel f l).length⟩

/-- An edge that stays, or gets a block. -/
def Way (f : Function) (s : Added) (l l' : Label) (s' : Added) : Prop := (l' = l ∧ s' = s) ∨ Breaks f s l l' s'

/-- An edge that gets a block if many enter where it does. -/
def Split (f : Function) (s : Added) (l l' : Label) (s' : Added) : Prop :=
  (inDeg f l ≤ 1 ∧ l' = l ∧ s' = s) ∨ Breaks f s l l' s'

/-- What becomes of a block. -/
structure Broken (codeMotion : Bool) (f : Function) (s : Added) (b b' : Block) (s' : Added) : Prop where
  label : b'.label = b.label
  args : b'.args = b.args
  statements : b'.statements = b.statements
  shaped : Shaped b.transfer b'.transfer
  ways : Threaded (Way f) s b.transfer.labels b'.transfer.labels s'
  split : breaks codeMotion f b.label = true → Threaded (Split f) s b.transfer.labels b'.transfer.labels s'

theorem Split.way (h : Split f s l l' s') : Way f s l l' s' := h.imp_left And.right

theorem split_replaced (s : Added) (l : Label) : Split f s l
    (StateT.run (if 1 < inDeg f l then newBlock f l else pure l) s : Id _).1
    (StateT.run (if 1 < inDeg f l then newBlock f l else pure l) s : Id _).2 := by
  split_ifs with hdeg
  · rw [run_newBlock]
    exact .inr ⟨hdeg, rfl, rfl⟩
  · exact .inl ⟨not_lt.mp hdeg, rfl, rfl⟩

theorem threaded_stay : ∀ (ls : List Label) (s : Added), Threaded (Way f) s ls ls s
  | [], s => .nil s
  | _ :: ls, s => .cons (.inl ⟨rfl, rfl⟩) (threaded_stay ls s)

theorem broken_breakBlock (b : Block) (s : Added) : Broken codeMotion f s b ((breakBlock codeMotion f b).run s).1
    ((breakBlock codeMotion f b).run s).2 := by
  rw [breakBlock]
  split_ifs with hbreaks
  · obtain ⟨hways, hshaped⟩ := threaded_replaceLabel (P := Split f) split_replaced b.transfer s
    exact ⟨rfl, rfl, rfl, hshaped, hways.mono fun _ h => h.way, fun _ => hways⟩
  · refine ⟨rfl, rfl, rfl, ⟨rfl, fun h => .self fun l hl => ?_⟩, threaded_stay _ s, fun h => absurd h hbreaks⟩
    exact List.forall₂_same.mp h l hl

/-! ## What is added -/

theorem Way.le (h : Way f s l l' s') : s.next ≤ s'.next := by
  obtain ⟨-, rfl⟩ | ⟨-, -, rfl⟩ := h
  · exact le_rfl
  · change s.next ≤ s.next + 1 + _
    omega

theorem next_le_of_ways (h : Threaded (Way f) s ls ls' s') : s.next ≤ s'.next := by
  induction h with
  | nil => exact le_rfl
  | cons hway _ ih => exact hway.le.trans ih

/-- **The blocks that are added**, one for each edge that is broken, with names of their own. -/
theorem added_of_ways (h : Threaded (Way f) s ls ls' s') : ∃ new, s'.newBlocks = new ++ s.newBlocks ∧
    new.Pairwise (fun b c => c.label.id < b.label.id) ∧
    (∀ b ∈ new, ∃ l ∈ ls, 1 < inDeg f l ∧ ∃ m, s.next ≤ m ∧ m + 1 + (argsLabel f l).length ≤ s'.next ∧ b = added f l m) ∧
    List.Forall₂ (fun l l' => l' = l ∨ ∃ b ∈ new, b = CriticalEdges.added f l l'.id ∧ s.next ≤ l'.id) ls ls' := by
  induction h with
  | nil => exact ⟨[], rfl, .nil, by simp, .nil⟩
  | @cons s s₁ s₂ l l' ls ls' hway hrest ih =>
    obtain ⟨new, heq, hpair, hnew, hall⟩ := ih
    have hle := next_le_of_ways hrest
    obtain ⟨rfl, rfl⟩ | ⟨hdeg, rfl, rfl⟩ := hway
    · refine ⟨new, heq, hpair, fun b hb => ?_, .cons (.inl rfl) hall⟩
      obtain ⟨l, hl, h⟩ := hnew b hb
      exact ⟨l, List.mem_cons_of_mem _ hl, h⟩
    · simp only at hle hnew hall
      refine ⟨new ++ [CriticalEdges.added f l s.next], by rw [heq, List.append_assoc]; rfl, ?_, ?_, .cons ?_ (hall.imp ?_)⟩
      · refine List.pairwise_append.mpr ⟨hpair, List.pairwise_singleton _ _, fun b hb c hc => ?_⟩
        obtain rfl := List.mem_singleton.mp hc
        obtain ⟨l₁, -, -, m, hm, -, rfl⟩ := hnew b hb
        change s.next < m
        omega
      · intro b hb
        obtain hb | hb := List.mem_append.mp hb
        · obtain ⟨l₁, hl₁, hdeg₁, m, hm, hm', rfl⟩ := hnew b hb
          exact ⟨l₁, List.mem_cons_of_mem _ hl₁, hdeg₁, m, by omega, hm', rfl⟩
        · obtain rfl := List.mem_singleton.mp hb
          exact ⟨l, List.mem_cons_self .., hdeg, s.next, le_rfl, hle, rfl⟩
      · exact .inr ⟨_, List.mem_append_right _ (List.mem_singleton_self _), rfl, le_rfl⟩
      · rintro l₁ l₁' (rfl | ⟨b, hb, hb', hlt⟩)
        · exact .inl rfl
        · exact .inr ⟨b, List.mem_append_left _ hb, hb', by omega⟩

/-- **A label is entered as often as before**, and a new one once. -/
theorem count_le_of_ways (h : Threaded (Way f) s ls ls' s') (l₀ : Label) :
    ls'.count l₀ ≤ ls.count l₀ + if s.next ≤ l₀.id then 1 else 0 := by
  induction h with
  | nil => simp
  | @cons s s₁ s₂ l l' ls ls' hway hrest ih =>
    obtain ⟨rfl, rfl⟩ | ⟨-, rfl, rfl⟩ := hway
    · simp only [List.count_cons]
      omega
    · have hle : ls.count l₀ ≤ (l :: ls).count l₀ := List.count_le_count_cons ..
      rw [List.count_cons]
      by_cases heq : (⟨s.next⟩ : Label) = l₀
      · subst heq
        rw [if_neg (by simp only; omega)] at ih
        simp only [le_refl, if_true, beq_self_eq_true]
        omega
      · rw [if_neg (by simpa using heq)]
        have hmono : (if s.next + 1 + (argsLabel f l).length ≤ l₀.id then 1 else 0) ≤ if s.next ≤ l₀.id then 1 else 0 := by
          split_ifs <;> omega
        simp only at ih
        omega

end Edges

/-! ## The rewritten function -/

theorem foldl_count (l : Label) : ∀ (ls : List Label) (n : ℕ),
    ls.foldl (fun n l' => if l' = l then n + 1 else n) n = n + ls.count l
  | [], n => rfl
  | l' :: ls, n => by
    rw [List.foldl_cons, foldl_count l ls, List.count_cons]
    by_cases h : l' = l <;> simp [h]
    omega

theorem inDeg_eq (f : Function) (l : Label) : inDeg f l = (f.blocks.flatMap (·.transfer.labels)).count l := by
  suffices ∀ (bs : List Block) (n : ℕ), bs.foldl (fun n b => b.transfer.labels.foldl
      (fun n l' => if l' = l then n + 1 else n) n) n = n + (bs.flatMap (·.transfer.labels)).count l by
    simpa [inDeg] using this f.blocks 0
  intro bs
  induction bs with
  | nil => exact fun n => rfl
  | cons b bs ih =>
    intro n
    rw [List.foldl_cons, ih, foldl_count, List.flatMap_cons, List.count_append, Nat.add_assoc]

theorem foldl_successors {l : Label} {b : Block} (n : ℕ) :
    b.transfer.labels.foldl (fun n _ => if b.label = l then n + 1 else n) n =
      n + if b.label = l then b.transfer.labels.length else 0 := by
  generalize b.transfer.labels = ls
  induction ls generalizing n with
  | nil => simp
  | cons l' ls ih =>
    rw [List.foldl_cons, ih]
    split_ifs
    · rw [List.length_cons]
      omega
    · rfl

/-- The out-degree of a block is the number of its successors, counted as often as they are named. -/
theorem outDeg_eq {f : Function} (hf : (f.blocks.map Block.label).Nodup) {b : Block} (hb : b ∈ f.blocks) :
    outDeg f b.label = b.transfer.labels.length := by
  simp only [outDeg, foldl_successors]
  suffices ∀ (bs : List Block) (n : ℕ), (bs.map Block.label).Nodup →
      bs.foldl (fun n c => n + if c.label = b.label then c.transfer.labels.length else 0) n =
        n + ((bs.find? (·.label = b.label)).map fun c => c.transfer.labels.length).getD 0 by
    rw [this f.blocks 0 hf, Fold.find?_key hf b hb, Option.map_some, Option.getD_some, Nat.zero_add]
  intro bs
  induction bs with
  | nil => exact fun n _ => rfl
  | cons c bs ih =>
    intro n hnodup
    obtain ⟨hc, hbs⟩ := List.nodup_cons.mp hnodup
    rw [List.foldl_cons, ih _ hbs, List.find?_cons]
    by_cases heq : c.label = b.label
    · have hnone : bs.find? (·.label = b.label) = none := by
        refine List.find?_eq_none.mpr fun d hd hlabel => hc ?_
        exact heq ▸ of_decide_eq_true hlabel ▸ List.mem_map_of_mem hd
      simp [heq, hnone]
    · simp [heq]

/-- An edge of the rewritten function. -/
def Goes (f : Function) (lo : ℕ) (new : List Block) (l l' : Label) : Prop :=
  l' = l ∨ (added f l l'.id ∈ new ∧ lo ≤ l'.id)

/-- A block of the rewritten function. -/
structure Rerouted (codeMotion : Bool) (f : Function) (lo : ℕ) (new : List Block) (b b' : Block) : Prop where
  label : b'.label = b.label
  args : b'.args = b.args
  statements : b'.statements = b.statements
  shaped : Shaped b.transfer b'.transfer
  goes : List.Forall₂ (Goes f lo new) b.transfer.labels b'.transfer.labels
  split : breaks codeMotion f b.label = true → ∀ l ∈ b'.transfer.labels, inDeg f l ≤ 1 ∨ lo ≤ l.id

/-- **The rewritten function**: the old blocks, with some edges broken, and a block for each of these edges. -/
structure Made (codeMotion : Bool) (lo hi : ℕ) (f f' : Function) : Prop where
  made : ∃ bs new, f' = { f with blocks := bs ++ new } ∧ List.Forall₂ (Rerouted codeMotion f lo new) f.blocks bs ∧
    new.Pairwise (fun b c => c.label.id < b.label.id) ∧
    (∀ c ∈ new, ∃ l ∈ f.blocks.flatMap (·.transfer.labels), 1 < inDeg f l ∧
      ∃ m, lo ≤ m ∧ m + 1 + (argsLabel f l).length ≤ hi ∧ c = added f l m) ∧
    ∀ l, (bs.flatMap (·.transfer.labels)).count l ≤
      (f.blocks.flatMap (·.transfer.labels)).count l + if lo ≤ l.id then 1 else 0

theorem split_of_ways {f : Function} {s s' : Added} {ls ls' : List Label} (h : Threaded (Split f) s ls ls' s') :
    ∀ l' ∈ ls', inDeg f l' ≤ 1 ∨ s.next ≤ l'.id := by
  induction h with
  | nil => simp
  | @cons s s₁ s₂ l l' ls ls' hsplit _ ih =>
    have hle := hsplit.way.le
    refine List.forall_mem_cons.mpr ⟨?_, fun m hm => (ih m hm).imp_right hle.trans⟩
    obtain ⟨hdeg, rfl, -⟩ | ⟨-, rfl, -⟩ := hsplit
    · exact .inl hdeg
    · exact .inr le_rfl

theorem made_breakFunction (codeMotion : Bool) (f : Function) (lo : ℕ) :
    lo ≤ ((breakFunction codeMotion f).run lo).2 ∧
      Made codeMotion lo ((breakFunction codeMotion f).run lo).2 f ((breakFunction codeMotion f).run lo).1 := by
  have hblocks : Threaded (Broken codeMotion f) ⟨[], lo⟩ f.blocks ((f.blocks.mapM (breakBlock codeMotion f)).run ⟨[], lo⟩).1
      ((f.blocks.mapM (breakBlock codeMotion f)).run ⟨[], lo⟩).2 :=
    .of_mapM fun b _ s => broken_breakBlock b s
  change lo ≤ ((f.blocks.mapM (breakBlock codeMotion f)).run ⟨[], lo⟩ : Id _).2.next ∧ Made codeMotion lo
    ((f.blocks.mapM (breakBlock codeMotion f)).run ⟨[], lo⟩ : Id _).2.next f
    { f with blocks := ((f.blocks.mapM (breakBlock codeMotion f)).run ⟨[], lo⟩ : Id _).1 ++
      ((f.blocks.mapM (breakBlock codeMotion f)).run ⟨[], lo⟩ : Id _).2.newBlocks }
  generalize ((f.blocks.mapM (breakBlock codeMotion f)).run ⟨[], lo⟩).1 = bs at hblocks ⊢
  generalize ((f.blocks.mapM (breakBlock codeMotion f)).run ⟨[], lo⟩).2 = s' at hblocks ⊢
  have hways : Threaded (Way f) ⟨[], lo⟩ (f.blocks.flatMap (·.transfer.labels)) (bs.flatMap (·.transfer.labels)) s' :=
    (hblocks.mono fun _ h => h.ways).flatMap
  obtain ⟨new, hnew, hpair, hadded, -⟩ := added_of_ways hways
  rw [List.append_nil] at hnew
  obtain ⟨-, -, hall⟩ := hblocks.forall₂ (Q := fun _ => True)
    (T := fun s s' => s.next ≤ s'.next ∧ s.newBlocks ⊆ s'.newBlocks) (fun s => ⟨le_rfl, fun _ h => h⟩)
    (fun h h' => ⟨h.1.trans h'.1, List.Subset.trans h.2 h'.2⟩)
    (fun _ h => by
      obtain ⟨new', heq, -⟩ := added_of_ways h.ways
      exact ⟨trivial, next_le_of_ways h.ways, fun c hc => heq ▸ List.mem_append_right _ hc⟩) trivial
  refine ⟨next_le_of_ways hways, bs, s'.newBlocks, rfl, hall.imp ?_, hnew ▸ hpair, hnew ▸ hadded, count_le_of_ways hways⟩
  rintro b b' ⟨s₁, s₂, hlo, -, hbroken, hs'⟩
  obtain ⟨new', heq, -, -, hgoes⟩ := added_of_ways hbroken.ways
  refine ⟨hbroken.label, hbroken.args, hbroken.statements, hbroken.shaped, hgoes.imp ?_, fun hbreaks l hl => ?_⟩
  · rintro l l' (rfl | ⟨c, hc, rfl, hle⟩)
    · exact .inl rfl
    · exact .inr ⟨hs'.2 (heq ▸ List.mem_append_left _ hc), hlo.1.trans hle⟩
  · exact (split_of_ways (hbroken.split hbreaks) l hl).imp_right hlo.1.trans

section Function

variable {codeMotion : Bool} {globals : List Var} {lo hi : ℕ} {f f' : Function} {l : Label} {b c : Block}

theorem Made.name (h : Made codeMotion lo hi f f') : f'.name = f.name := by
  obtain ⟨bs, new, rfl, -⟩ := h.made
  rfl

theorem Made.args (h : Made codeMotion lo hi f f') : f'.args = f.args := by
  obtain ⟨bs, new, rfl, -⟩ := h.made
  rfl

theorem Made.start (h : Made codeMotion lo hi f f') : f'.start = f.start := by
  obtain ⟨bs, new, rfl, -⟩ := h.made
  rfl

theorem label_added (f : Function) (l : Label) (m : ℕ) : (added f l m).label = ⟨m⟩ := rfl

theorem labels_rerouted {new bs bs' : List Block} (h : List.Forall₂ (Rerouted codeMotion f lo new) bs bs') :
    bs'.map Block.label = bs.map Block.label := by
  induction h with
  | nil => rfl
  | cons hb _ ih => rw [List.map_cons, List.map_cons, hb.label, ih]

/-- **The names of the blocks stay apart.** -/
theorem Made.labels_nodup (h : Made codeMotion lo hi f f') (hf : (f.blocks.map Block.label).Nodup)
    (hlo : ∀ l ∈ f.blocks.map Block.label, l.id < lo) : (f'.blocks.map Block.label).Nodup := by
  obtain ⟨bs, new, rfl, hall, hpair, hnew, -⟩ := h.made
  rw [List.map_append, labels_rerouted hall]
  refine List.nodup_append'.mpr ⟨hf, ?_, fun l hl hl' => ?_⟩
  · exact List.pairwise_map.mpr (hpair.imp fun hlt heq => absurd (congrArg Label.id heq) hlt.ne')
  · obtain ⟨c, hc, rfl⟩ := List.mem_map.mp hl'
    obtain ⟨l, -, -, m, hm, -, rfl⟩ := hnew c hc
    exact absurd (hlo _ hl) (not_lt.mpr hm)

/-- The blocks of the rewritten function. -/
theorem Made.block? (h : Made codeMotion lo hi f f') (hf : (f.blocks.map Block.label).Nodup)
    (hlo : ∀ l ∈ f.blocks.map Block.label, l.id < lo) : ∃ new,
      (∀ {l b}, f.block? l = some b → ∃ b', f'.block? l = some b' ∧ Rerouted codeMotion f lo new b b') ∧
      ∀ c ∈ new, f'.block? c.label = some c := by
  have hnodup := h.labels_nodup hf hlo
  obtain ⟨bs, new, rfl, hall, -⟩ := h.made
  refine ⟨new, fun {l b} hb => ?_, fun c hc => ?_⟩
  · obtain ⟨b', hb', hR⟩ := Fold.exists_of_mem_left hall (Function.block?_mem hb)
    refine ⟨b', ?_, hR⟩
    rw [← Function.block?_label hb, ← hR.label]
    exact Fold.find?_key hnodup b' (List.mem_append_left _ hb')
  · exact Fold.find?_key hnodup c (List.mem_append_right _ hc)

/-- **No edge of the rewritten function is critical.** -/
theorem Made.none_critical (h : Made codeMotion lo hi f f') (hf : f.Scoped globals)
    (hlo : ∀ l ∈ f.blocks.map Block.label, l.id < lo) (hb : b ∈ f'.blocks)
    (hbreaks : breaks codeMotion f' b.label = true) : ∀ l ∈ b.transfer.labels, inDeg f' l ≤ 1 := by
  have hnodup := h.labels_nodup hf.labels hlo
  obtain ⟨bs, new, hf', hall, -, hnew, hcount⟩ := h.made
  have hmust : ∀ {c}, c ∈ f'.blocks → mustBreak f' c.label = mustBreakTransfer c.transfer := by
    intro c hc
    rw [mustBreak, Function.block?, Fold.find?_key hnodup c hc]
    rfl
  have hbreaks' : codeMotion = true ∧ mustBreakTransfer b.transfer = true ∨ 2 ≤ b.transfer.labels.length := by
    rw [breaks, hmust hb, outDeg_eq hnodup hb] at hbreaks
    simpa using hbreaks
  -- the labels of the old function are old
  have hold : ∀ l ∈ f.blocks.flatMap (·.transfer.labels), l.id < lo := by
    intro l hl
    obtain ⟨c, hc, hl⟩ := List.mem_flatMap.mp hl
    obtain ⟨d, hd⟩ := hf.targets (hf.block?_of_mem hc) l hl
    exact hlo l (Function.block?_label hd ▸ List.mem_map_of_mem (Function.block?_mem hd))
  -- a block that is added goes where many edges enter
  have hzero : ∀ l, inDeg f l ≤ 1 ∨ lo ≤ l.id → (new.flatMap (·.transfer.labels)).count l = 0 := by
    intro l hl
    refine List.count_eq_zero.mpr fun hmem => ?_
    obtain ⟨c, hc, hlc⟩ := List.mem_flatMap.mp hmem
    obtain ⟨l₁, hl₁, hdeg, m, -, -, rfl⟩ := hnew c hc
    obtain rfl := List.mem_singleton.mp hlc
    exact hl.elim (not_le.mpr hdeg) (not_le.mpr (hold l hl₁))
  have hdeg : ∀ l, inDeg f l ≤ 1 ∨ lo ≤ l.id → inDeg f' l ≤ 1 := by
    intro l hl
    have hle := hcount l
    rw [inDeg_eq, hf', List.flatMap_append, List.count_append, hzero l hl]
    by_cases hlt : lo ≤ l.id
    · rw [List.count_eq_zero.mpr fun hmem => absurd (hold l hmem) (not_lt.mpr hlt), if_pos hlt] at hle
      exact hle
    · rw [if_neg hlt, ← inDeg_eq] at hle
      exact hle.trans (hl.resolve_right hlt)
  intro l hl
  rw [hf'] at hb
  obtain hb | hb := List.mem_append.mp hb
  · obtain ⟨b₀, hb₀, hR⟩ := Fold.exists_of_mem_right hall hb
    refine hdeg l (hR.split ?_ l hl)
    have hmust₀ : mustBreak f b₀.label = mustBreakTransfer b₀.transfer := by
      rw [mustBreak, hf.block?_of_mem hb₀]
      rfl
    rw [breaks, hmust₀, outDeg_eq hf.labels hb₀, hR.goes.length_eq, ← hR.shaped.mustBreak]
    simpa using hbreaks'
  · obtain ⟨l₁, -, -, m, -, -, rfl⟩ := hnew b hb
    simp [added, etaBlock, mustBreakTransfer, Transfer.labels] at hbreaks'

end Function

/-! ## The rewritten program -/

section Programs

variable {W : World} {G : Env} {codeMotion : Bool} {globals : List Var} {n : ℕ} {p : Program}

theorem drawn_breakCriticalEdges (codeMotion : Bool) (p : Program) (n : ℕ) : ∃ fs hi,
    Drawn (Made codeMotion) n p.functions fs hi ∧
      ((breakCriticalEdges codeMotion p).run n).1 = { p with functions := fs.reverse } :=
  ⟨_, _, .of_mapM le_rfl fun f _ m _ => made_breakFunction codeMotion f m, rfl⟩

/-- Variables in scope have names of the program. -/
theorem Function.InScope.id_lt (hnamed : p.Named globals n) {f : Function} (hf : f ∈ p.functions) {x : Var} {pt : Point}
    (hreach : f.Reachable pt) (hx : f.InScope globals x pt) : x.id < n := by
  obtain ⟨q, hdef⟩ := hx.exists_defines hreach
  obtain hbinds | ⟨hglobal | harg, -⟩ := hdef
  · exact hnamed.binds f hf hbinds
  · exact hnamed.globals x hglobal
  · exact hnamed.args f hf x harg

/-- A broken edge leads to where it led. -/
theorem lands_goes {lo : ℕ} {new : List Block} {p' : Program} {R : Function → Function → Prop} {fr fr' : Frame}
    {tr : Transfer} (hscoped : p.Scoped globals) (hnamed : p.Named globals n) (hlo : n ≤ lo)
    (h : Counterparts W p p' G globals R) (hF : fr.Alike globals R fr')
    (hfr : fr.Defined W globals p) (hat : fr.At tr) (hnew : ∀ c ∈ new, fr'.func.block? c.label = some c)
    {l l' : Label} (hl : l ∈ tr.labels) (hgoes : Goes fr.func lo new l l') (vs : List Val) :
    Lands W p' G (Frame.Alike globals R) (fr.enter l vs) (fr'.enter l' vs) := by
  obtain rfl | ⟨hadded, hle⟩ := hgoes
  · exact .of_rel (h.enter hscoped hF.func hF.env hfr hat hl vs)
  · have hblock := hnew _ hadded
    rw [label_added] at hblock
    obtain ⟨b, hb, hnone, rfl⟩ := hat
    obtain ⟨c, hc⟩ := (hscoped.functions _ hfr.func).targets hb l hl
    have hargs : argsLabel fr.func l = c.args := by rw [argsLabel, hc]; rfl
    set names := (freshArgs c.args (l'.id + 1)).map Prod.fst with hnames
    have hlen : (freshArgs c.args (l'.id + 1)).length = c.args.length := length_freshArgs _ _
    have henter : ∀ fr₀ : Frame, fr₀.func = fr'.func → fr₀.enter l' vs =
        if c.args.length = vs.length then some ⟨fr'.func, l', 0, fr₀.env.sets names vs⟩ else none := by
      rintro fr₀ hfunc
      rw [Frame.enter, hfunc, hblock, Option.bind_some]
      simp only [added, etaBlock, hargs, hlen, hnames]
    -- what is passed on is what was passed
    have hon := h.enter hscoped (g := ⟨fr'.func, l', 0, fr'.env.sets names vs⟩) hF.func (fun {x} hx => by
      refine (Env.sets_of_notMem fun hmem => ?_).trans (hF.env hx)
      have := (mem_freshArgs hmem).1
      have := Function.InScope.id_lt hnamed hfr.func hfr.reach hx
      omega) hfr ⟨b, hb, hnone, rfl⟩ hl vs
    rw [henter fr' rfl]
    by_cases hvs : c.args.length = vs.length
    · rw [if_pos hvs]
      have hsome : ∃ fr₂, fr.enter l vs = some fr₂ := by
        rw [Frame.enter, hc, Option.bind_some, if_pos hvs]
        exact ⟨_, rfl⟩
      obtain ⟨fr₂, hfr₂⟩ := hsome
      obtain ⟨fr₂', hfr₂', hF₂⟩ := exists_of_rel hon hfr₂
      rw [hfr₂]
      refine ⟨_, fr₂', rfl, .single (Frame.quiet_of_goes ⟨_, hblock, rfl, rfl⟩ rfl ?_), hF₂⟩
      change ((fr'.env.sets names vs).all ((freshArgs (argsLabel fr.func l) (l'.id + 1)).map Prod.fst)).bind
        (Frame.enter ⟨fr'.func, l', 0, fr'.env.sets names vs⟩ l) = some fr₂'
      rw [hargs, Env.all_sets (nodup_freshArgs _ _) (by rw [List.length_map, hlen, hvs]), Option.bind_some]
      exact hfr₂'
    · rw [if_neg hvs, Frame.enter, hc, Option.bind_some, if_neg hvs]
      rfl

/-- **The pass redirects transfers.** -/
theorem redirects (hscoped : p.Scoped globals) (hnamed : p.Named globals n) :
    Redirects W p ((breakCriticalEdges codeMotion p).run n).1 G globals
      fun f f' => ∃ lo hi, n ≤ lo ∧ Made codeMotion lo hi f f' := by
  obtain ⟨fs, hi, hdrawn, hp'⟩ := drawn_breakCriticalEdges codeMotion p n
  have hbelow : ∀ f ∈ p.functions, ∀ {lo}, n ≤ lo → ∀ l ∈ f.blocks.map Block.label, l.id < lo :=
    fun f hf lo hlo l hl => (hnamed.labels f hf l hl).trans_le hlo
  have hfunctions := hscoped.rel_function? hdrawn Made.name (congrArg Program.functions hp')
  have hcounter : Counterparts W p ((breakCriticalEdges codeMotion p).run n).1 G globals
      fun f f' => ∃ lo hi, n ≤ lo ∧ Made codeMotion lo hi f f' :=
    { main := by rw [hp']
      functions := hfunctions p.main
      activate := by
        rintro f f' - ⟨lo, hi, hlo, hmade⟩ vs
        exact .of_rel (Frame.Alike.activate ⟨lo, hi, hlo, hmade⟩ hmade.args hmade.start vs)
      block := by
        rintro f f' l i b hf ⟨lo, hi, hlo, hmade⟩ - hb
        obtain ⟨new, hold, -⟩ := hmade.block? (hscoped.functions f hf).labels (hbelow f hf hlo)
        obtain ⟨b', hb', hR⟩ := hold hb
        exact ⟨b', hb', hR.args, hR.statements⟩ }
  refine ⟨hcounter, fun {fr fr' tr} hF hglobal hat => ?_⟩
  have hfr := hglobal.toDefined
  obtain ⟨lo, hi, hlo, hmade⟩ := hF.func
  obtain ⟨new, hold, hnew⟩ := hmade.block? (hscoped.functions _ hfr.func).labels (hbelow _ hfr.func hlo)
  obtain ⟨b, hb, hnone, htr⟩ := id hat
  obtain ⟨b', hb', hR⟩ := hold hb
  refine ⟨fr', b'.transfer, .refl, ⟨b', hF.label ▸ hb', ?_, rfl⟩, ?_⟩
  · rw [hR.statements, hF.index]
    exact hnone
  · refine (htr ▸ hR.shaped.relabels hR.goes).takes (hfr.env_transfer hscoped hat hF.env) (fun l hl l' hgoes vs => ?_)
      fun args func k vs _ => hcounter.lands (hfunctions func) vs
    exact lands_goes hscoped hnamed hlo hcounter hF hfr hat hnew hl hgoes vs

/-- **`breakCriticalEdges` keeps the runs of the program.** -/
theorem breakCriticalEdges_sameRuns (hscoped : p.Scoped globals) (hnamed : p.Named globals n)
    (hG : ∀ x ∈ globals, ∃ v, G x = some v) : p.SameRuns W G ((breakCriticalEdges codeMotion p).run n).1 :=
  (redirects hscoped hnamed).sameRuns hscoped hG

/-- One edge is broken. -/
theorem breakCriticalEdges_sameRuns_sample :
    ((breakCriticalEdges false sample).run 5).1.functions.map (fun f => f.blocks.map fun b => (b.label.id, b.transfer.labels)) =
      [[(0, [⟨1⟩, ⟨5⟩, ⟨3⟩]), (1, [⟨2⟩]), (2, []), (3, []), (4, []), (5, [⟨2⟩])]] ∧
    sample.SameRuns .idle sampleEnv ((breakCriticalEdges false sample).run 5).1 :=
  ⟨by decide, breakCriticalEdges_sameRuns scoped_sample named_sample bound_sample⟩

/-- **After `breakCriticalEdges` there are no critical edges**: where a block has two successors, or is to be broken for
the sake of code motion, nothing else goes where it goes. -/
theorem breakCriticalEdges_none (hscoped : p.Scoped globals) (hnamed : p.Named globals n) :
    ∀ f' ∈ ((breakCriticalEdges codeMotion p).run n).1.functions, ∀ b ∈ f'.blocks, breaks codeMotion f' b.label = true →
      ∀ l ∈ b.transfer.labels, inDeg f' l ≤ 1 := by
  obtain ⟨fs, hi, hdrawn, hp'⟩ := drawn_breakCriticalEdges codeMotion p n
  intro f' hf' b hb hbreaks
  rw [hp', List.mem_reverse] at hf'
  obtain ⟨f, hf, lo, hi', hlo, -, hmade⟩ := Fold.exists_of_mem_right hdrawn.forall₂ hf'
  exact hmade.none_critical (hscoped.functions f hf) (fun l hl => (hnamed.labels f hf l hl).trans_le hlo) hb hbreaks

theorem breakCriticalEdges_none_sample : ∃ f' ∈ ((breakCriticalEdges true sample).run 5).1.functions, ∃ b ∈ f'.blocks,
    breaks true f' b.label = true ∧ ∀ l ∈ b.transfer.labels, inDeg f' l ≤ 1 := by
  obtain ⟨f', hf', b, hb, h⟩ : ∃ f' ∈ ((breakCriticalEdges true sample).run 5).1.functions, ∃ b ∈ f'.blocks,
      breaks true f' b.label = true := by decide
  exact ⟨f', hf', b, hb, h, breakCriticalEdges_none scoped_sample named_sample f' hf' b hb h⟩

end Programs

end CriticalEdges

end MLton.Ssa
