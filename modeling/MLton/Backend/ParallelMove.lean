import Mathlib.Data.List.Pairwise
import Mathlib.Data.List.Perm.Basic
import Mathlib.Data.Prod.Lex

/-!
# Backend/ParallelMove — moves that happen at once, one after the other

A move whose destination no waiting source depends on is emitted.  When all the moves that wait are
blocked, the sources that the first of them would overwrite are saved in temporaries, and it is emitted.

The specification (`Assigns`) is about the statements still to be emitted: from any state, they give every
destination what its source holds in that state.  So each step of the scheduler is one lemma about the
statements it puts in front (`Assigns.cons`, `Assigns.broken`), and no history is needed.
-/

namespace MLton.ParallelMove

/-- A move, from a temporary to a temporary. -/
structure Move (L : Type*) where
  src : L
  dst : L

/-- The arguments of `ParallelMove.move`; the call number `n` of `temp` returns `temp n`. -/
structure Args (L Stm : Type*) where
  equals : L → L → Bool
  move : Move L → Option Stm
  interfere : L → L → Bool
  temp : ℕ → L → L

variable {L Stm S V : Type*} (A : Args L Stm)

namespace Args

/-- Emit the statement of a move, if it needs one; the statements are in reverse. -/
def emit (mv : Move L) (moves : List Stm) : List Stm :=
  match A.move mv with
  | none => moves
  | some move => move :: moves

/-- Writing the destination would invalidate the source of a waiting move. -/
def isHard (dst : L) (l : List (Move L)) : Bool := l.any fun mv => A.interfere dst mv.src

/-- What the fold over the blocked moves does for one of them. -/
def save (dst : L) (acc : List (Move L) × List Stm × ℕ) (mv : Move L) : List (Move L) × List Stm × ℕ :=
  let (hard, moves, n) := acc
  if A.interfere dst mv.src then
    let temp := A.temp n mv.src
    (⟨temp, mv.dst⟩ :: hard, A.emit ⟨mv.src, temp⟩ moves, n + 1)
  else (mv :: hard, moves, n)

theorem length_save (dst : L) : ∀ (l : List (Move L)) (acc : List (Move L) × List Stm × ℕ),
    (l.foldl (A.save dst) acc).1.length = acc.1.length + l.length
  | [], _ => rfl
  | mv :: l, acc => by
      have hone : (A.save dst acc mv).1.length = acc.1.length + 1 := by
        obtain ⟨hard, moves, n⟩ := acc
        simp only [save]
        split <;> rfl
      rw [List.foldl_cons, length_save dst l, hone, List.length_cons, Nat.add_right_comm, Nat.add_assoc]

/-- The fold over the blocked moves: save those sources that the destination interferes with. -/
def saveBlocked (dst : L) (hard : List (Move L)) (moves : List Stm) (n : ℕ) :
    List (Move L) × List Stm × ℕ :=
  hard.foldl (A.save dst) ([], moves, n)

/-- `loop`; what `loopTop` does is to start with no move blocked and nothing changed. -/
def loop (mvs hard : List (Move L)) (moves : List Stm) (changed : Bool) (n : ℕ) : List Stm :=
  match mvs with
  | [] =>
    match hard with
    | [] => moves.reverse
    | mv :: hard' =>
      if changed then loop (mv :: hard') [] moves false n
      else
        let acc := A.saveBlocked mv.dst hard' moves n
        loop acc.1 [] (A.emit mv acc.2.1) false acc.2.2
  | mv :: mvs =>
    if A.isHard mv.dst mvs || A.isHard mv.dst hard then loop mvs (mv :: hard) moves changed n
    else loop mvs hard (A.emit mv moves) true n
termination_by (mvs.length + hard.length, changed.toNat, mvs.length)
decreasing_by
  · simp_all [Prod.lex_def]
  · simp [Prod.lex_def, saveBlocked, length_save]
  · simp [Prod.lex_def]
    omega
  · simp [Prod.lex_def]

/-- `ParallelMove.move`. -/
def parallelMove (moves : List (Move L)) : List Stm :=
  let mvs := moves.foldl (fun mvs mv => if A.equals mv.src mv.dst then mvs else mv :: mvs) []
  A.loop mvs [] [] false 0

end Args

/-- Execute statements in order. -/
def run (exec : Stm → S → S) (stms : List Stm) (st : S) : S := stms.foldl (fun st stm => exec stm st) st

@[simp] theorem run_nil {exec : Stm → S → S} {st : S} : run exec [] st = st := rfl

@[simp] theorem run_append {exec : Stm → S → S} {stms stms' : List Stm} {st : S} :
    run exec (stms ++ stms') st = run exec stms' (run exec stms st) := List.foldl_append

/-- **What the arguments are for.**  `Fits d v` says that the temporary `d` can hold the value `v`. -/
structure Means (exec : Stm → S → S) (read : L → S → V) (Fits : L → V → Prop) : Prop where
  equals {a b : L} {st : S} : A.equals a b = true → read a st = read b st
  move {mv : Move L} {st : S} : Fits mv.dst (read mv.src st) →
    read mv.dst (run exec (A.move mv).toList st) = read mv.src st
  interfere {mv : Move L} {x : L} {st : S} : A.interfere mv.dst x = false →
    read x (run exec (A.move mv).toList st) = read x st
  fits {n : ℕ} {l : L} {st : S} : Fits (A.temp n l) (read l st)
  fresh {n : ℕ} {l x : L} : x ≠ A.temp n l →
    A.interfere (A.temp n l) x = false ∧ A.interfere x (A.temp n l) = false
  distinct {n n' : ℕ} {l l' : L} : A.temp n l = A.temp n' l' → n = n'

/-- No destination interferes with another one. -/
def Apart (mvs : List (Move L)) : Prop :=
  mvs.Pairwise fun mv mv' => A.interfere mv.dst mv'.dst = false ∧ A.interfere mv'.dst mv.dst = false

/-- The moves do not use what `temp` returns from the call `n` on. -/
def Unused (mvs : List (Move L)) (n : ℕ) : Prop :=
  ∀ mv ∈ mvs, ∀ k, n ≤ k → ∀ l, mv.src ≠ A.temp k l ∧ mv.dst ≠ A.temp k l

/-- **The statements perform the moves at once**: every destination ends with what its source holds at the
start, and what no destination interferes with stays as it is, temporaries apart. -/
def Assigns (exec : Stm → S → S) (read : L → S → V) (Fits : L → V → Prop) (mvs : List (Move L)) (n : ℕ)
    (stms : List Stm) : Prop :=
  ∀ st, (∀ mv ∈ mvs, Fits mv.dst (read mv.src st)) →
    (∀ mv ∈ mvs, read mv.dst (run exec stms st) = read mv.src st) ∧
    ∀ x, (∀ mv ∈ mvs, A.interfere mv.dst x = false) → (∀ k, n ≤ k → ∀ l, x ≠ A.temp k l) →
      read x (run exec stms st) = read x st

variable {A} {exec : Stm → S → S} {read : L → S → V} {Fits : L → V → Prop}
  {mv : Move L} {mvs mvs' : List (Move L)} {n n' : ℕ} {stms moves : List Stm}

theorem Args.reverse_emit : (A.emit mv moves).reverse = moves.reverse ++ (A.move mv).toList := by
  unfold Args.emit
  split <;> simp_all

theorem Apart.perm (h : Apart A mvs) (hperm : mvs.Perm mvs') : Apart A mvs' :=
  (hperm.pairwise_iff fun h => ⟨h.2, h.1⟩).mp h

theorem Apart.congr_dst (h : Apart A mvs) (hdst : mvs.map Move.dst = mvs'.map Move.dst) :
    Apart A mvs' := by
  have hmap : ∀ l : List (Move L), (l.map Move.dst).Pairwise (fun d d' =>
      A.interfere d d' = false ∧ A.interfere d' d = false) ↔ Apart A l := fun l => by
    rw [List.pairwise_map, Apart]
  rwa [← hmap, ← hdst, hmap]

theorem Unused.subset (h : Unused A mvs n) (hsub : mvs' ⊆ mvs) : Unused A mvs' n :=
  fun mv hmv => h mv (hsub hmv)

theorem Assigns.congr (h : Assigns A exec read Fits mvs n stms) (hmem : ∀ mv, mv ∈ mvs' ↔ mv ∈ mvs) :
    Assigns A exec read Fits mvs' n stms := by
  simpa only [Assigns, hmem] using h

/-- **A move that is not blocked goes first.** -/
theorem Assigns.cons (hm : Means A exec read Fits) (h : Assigns A exec read Fits mvs n stms)
    (hapart : Apart A (mv :: mvs)) (hunused : Unused A (mv :: mvs) n)
    (hfree : ∀ mv' ∈ mvs, A.interfere mv.dst mv'.src = false) :
    Assigns A exec read Fits (mv :: mvs) n ((A.move mv).toList ++ stms) := by
  intro st hfits
  obtain ⟨hmv, hfits⟩ := List.forall_mem_cons.mp hfits
  have hsrc : ∀ mv' ∈ mvs, read mv'.src (run exec (A.move mv).toList st) = read mv'.src st :=
    fun mv' hmv' => hm.interfere (hfree mv' hmv')
  obtain ⟨hdst, hframe⟩ := h (run exec (A.move mv).toList st) fun mv' hmv' => by
    rw [hsrc mv' hmv']
    exact hfits mv' hmv'
  obtain ⟨hhead, -⟩ := List.pairwise_cons.mp hapart
  simp only [run_append]
  refine ⟨List.forall_mem_cons.mpr ⟨?_, fun mv' hmv' => (hdst mv' hmv').trans (hsrc mv' hmv')⟩,
    fun x hx hnew => ?_⟩
  · rw [hframe mv.dst (fun mv' hmv' => (hhead mv' hmv').2) fun k hk l => (hunused mv (by simp) k hk l).2]
    exact hm.move hmv
  · obtain ⟨hxmv, hx⟩ := List.forall_mem_cons.mp hx
    rw [hframe x hx hnew]
    exact hm.interfere hxmv

/-- What a move has to do: its destination, and the value for it. -/
def Move.task (read : L → S → V) (st : S) (mv : Move L) : L × V := (mv.dst, read mv.src st)

/-- **What the fold over the blocked moves emits.**  Afterwards there is a move for the same task with a
source that the destination does not interfere with. -/
theorem foldl_save (hm : Means A exec read Fits) (dst : L) : ∀ {l : List (Move L)} (hard : List (Move L))
    (moves : List Stm) {n : ℕ}, Unused A l n → (∀ k, n ≤ k → ∀ l, dst ≠ A.temp k l) →
    ∃ l' stms n', l.foldl (A.save dst) (hard, moves, n) = (l'.reverse ++ hard, stms.reverse ++ moves, n') ∧
      n ≤ n' ∧ l.map Move.dst = l'.map Move.dst ∧ Unused A l' n' ∧
      (∀ mv ∈ l', A.interfere dst mv.src = false) ∧
      (∀ st, l.map (Move.task read st) = l'.map (Move.task read (run exec stms st))) ∧
      ∀ st x, (∀ k, n ≤ k → ∀ l, x ≠ A.temp k l) → read x (run exec stms st) = read x st
  | [], hard, moves, n, _, _ =>
      ⟨[], [], n, by simp, le_rfl, rfl, by simp [Unused], by simp, by simp, by simp⟩
  | mv :: l, hard, moves, n, hunused, hdst => by
      have hmv := hunused mv List.mem_cons_self
      have hl : Unused A l n := hunused.subset (List.subset_cons_self _ _)
      cases hblocked : A.interfere dst mv.src with
      | false =>
        obtain ⟨l', stms, n', hfold, hle, hdsts, hunused', hfree, htask, hframe⟩ :=
          foldl_save hm dst (mv :: hard) moves hl hdst
        refine ⟨mv :: l', stms, n', ?_, hle, by simp [hdsts], ?_, by simpa [hblocked] using hfree,
          fun st => ?_, hframe⟩
        · simp [Args.save, hblocked, hfold]
        · exact List.forall_mem_cons.mpr ⟨fun k hk l => hmv k (hle.trans hk) l, hunused'⟩
        · have hsrc := hframe st mv.src fun k hk l => (hmv k hk l).1
          simp [Move.task, hsrc, ← htask st]
      | true =>
        have hnew : Unused A l (n + 1) := fun mv' hmv' k hk => hl mv' hmv' k (by omega)
        obtain ⟨l', stms, n', hfold, hle, hdsts, hunused', hfree, htask, hframe⟩ :=
          foldl_save hm dst (⟨A.temp n mv.src, mv.dst⟩ :: hard)
            (A.emit ⟨mv.src, A.temp n mv.src⟩ moves) hnew fun k hk => hdst k (by omega)
        have hother : ∀ k, n + 1 ≤ k → ∀ l, A.temp n mv.src ≠ A.temp k l := by
          intro k hk l heq
          have := hm.distinct heq
          omega
        refine ⟨⟨A.temp n mv.src, mv.dst⟩ :: l', (A.move ⟨mv.src, A.temp n mv.src⟩).toList ++ stms, n',
          ?_, by omega, by simp [hdsts], ?_, ?_, fun st => ?_, fun st x hx => ?_⟩
        · have hemit : A.emit ⟨mv.src, A.temp n mv.src⟩ moves =
              (A.move ⟨mv.src, A.temp n mv.src⟩).toList.reverse ++ moves := by
            rw [← List.reverse_inj, Args.reverse_emit, List.reverse_append, List.reverse_reverse]
          rw [List.foldl_cons, Args.save, if_pos hblocked, hfold]
          simp [hemit]
        · exact List.forall_mem_cons.mpr ⟨fun k hk l => ⟨hother k (by omega) l, (hmv k (by omega) l).2⟩,
            hunused'⟩
        · exact List.forall_mem_cons.mpr ⟨(hm.fresh (hdst n le_rfl mv.src)).2, hfree⟩
        · -- The temporary holds the value, and saving it changes no source.
          have hsaved := @Means.move _ _ _ _ _ _ _ _ hm ⟨mv.src, A.temp n mv.src⟩ st hm.fits
          have hkept := hframe (run exec (A.move ⟨mv.src, A.temp n mv.src⟩).toList st) (A.temp n mv.src) hother
          have hsrc : l.map (Move.task read (run exec (A.move ⟨mv.src, A.temp n mv.src⟩).toList st)) =
              l.map (Move.task read st) := by
            refine List.map_congr_left fun mv' hmv' => Prod.ext rfl ?_
            exact hm.interfere (hm.fresh (hl mv' hmv' n le_rfl mv.src).1).1
          simp only [List.map_cons, run_append, ← htask, hsrc, Move.task, hkept, hsaved]
        · rw [run_append, hframe _ x fun k hk => hx k (by omega)]
          exact hm.interfere (hm.fresh (hx n le_rfl mv.src)).1

/-- **A blocked move goes first when the sources that it would overwrite are saved.** -/
theorem Assigns.broken (hm : Means A exec read Fits) {l l' : List (Move L)} {saves : List Stm}
    (h : Assigns A exec read Fits l' n' stms) (hle : n ≤ n') (hapart : Apart A (mv :: l))
    (hunused : Unused A (mv :: l) n) (hdsts : l.map Move.dst = l'.map Move.dst) (hunused' : Unused A l' n')
    (hfree : ∀ mv' ∈ l', A.interfere mv.dst mv'.src = false)
    (htask : ∀ st, l.map (Move.task read st) = l'.map (Move.task read (run exec saves st)))
    (hframe : ∀ st x, (∀ k, n ≤ k → ∀ l, x ≠ A.temp k l) → read x (run exec saves st) = read x st) :
    Assigns A exec read Fits (mv :: l) n (saves ++ ((A.move mv).toList ++ stms)) := by
  have hmv := hunused mv List.mem_cons_self
  have hnext : Assigns A exec read Fits (mv :: l') n' ((A.move mv).toList ++ stms) :=
    h.cons hm (hapart.congr_dst (by simp [hdsts]))
      (List.forall_mem_cons.mpr ⟨fun k hk => hmv k (hle.trans hk), hunused'⟩) hfree
  intro st hfits
  have hsrc : read mv.src (run exec saves st) = read mv.src st := hframe st mv.src fun k hk l => (hmv k hk l).1
  have htasks : (mv :: l).map (Move.task read st) =
      (mv :: l').map (Move.task read (run exec saves st)) := by
    simp only [List.map_cons, htask st, Move.task, hsrc]
  -- What holds of the tasks holds of the moves for them.
  have hall : ∀ Q : L × V → Prop, (∀ mv' ∈ mv :: l, Q (mv'.task read st)) ↔
      ∀ mv' ∈ mv :: l', Q (mv'.task read (run exec saves st)) := fun Q => by
    rw [← List.forall_mem_map, htasks, List.forall_mem_map]
  obtain ⟨hdst, hkeep⟩ := hnext (run exec saves st) ((hall fun t => Fits t.1 t.2).mp hfits)
  rw [run_append]
  refine ⟨(hall fun t => read t.1 _ = t.2).mpr hdst, fun x hx hnew => ?_⟩
  rw [hkeep x ((hall fun t => A.interfere t.1 x = false).mp hx) fun k hk => hnew k (hle.trans hk)]
  exact hframe st x hnew

/-- **The scheduler** puts statements behind those it has emitted, and they perform the moves. -/
theorem loop_assigns (hm : Means A exec read Fits) (mvs hard : List (Move L)) (moves : List Stm)
    (changed : Bool) (n : ℕ) (hapart : Apart A (mvs ++ hard)) (hunused : Unused A (mvs ++ hard) n) :
    ∃ stms, A.loop mvs hard moves changed n = moves.reverse ++ stms ∧
      Assigns A exec read Fits (mvs ++ hard) n stms := by
  fun_induction Args.loop A mvs hard moves changed n with
  | case1 moves changed n => exact ⟨[], by simp, fun st _ => ⟨by simp, fun x _ _ => rfl⟩⟩
  | case2 moves n mv hard' ih =>
    obtain ⟨stms, hloop, hassigns⟩ := ih (by simpa using hapart) (by simpa using hunused)
    exact ⟨stms, hloop, hassigns.congr (by simp)⟩
  | case3 moves changed n mv hard' hchanged acc ih =>
    have hrest : Unused A hard' n := hunused.subset (List.subset_cons_self _ _)
    obtain ⟨l', saves, n', hfold, hle, hdsts, hunused', hfree, htask, hframe⟩ :=
      foldl_save hm mv.dst [] moves hrest fun k hk l =>
        (hunused mv (by simp) k hk l).2
    have hacc : acc = (l'.reverse, saves.reverse ++ moves, n') := by
      rw [List.append_nil] at hfold
      exact hfold
    have hapart' : Apart A l' := Apart.congr_dst (List.pairwise_cons.mp hapart).2 hdsts
    simp only [hacc, List.append_nil] at ih
    obtain ⟨stms, hloop, hassigns⟩ := ih (hapart'.perm l'.reverse_perm.symm)
      (hunused'.subset fun mv' hmv' => List.mem_reverse.mp hmv')
    refine ⟨saves ++ ((A.move mv).toList ++ stms), ?_, ?_⟩
    · rw [hacc, hloop, Args.reverse_emit]
      simp
    · exact Assigns.broken hm (hassigns.congr (by simp)) hle hapart hunused hdsts hunused' hfree htask
        hframe
  | case4 hard moves changed n mv mvs hhard ih =>
    have hperm : (mv :: mvs ++ hard).Perm (mvs ++ mv :: hard) := List.perm_middle.symm
    obtain ⟨stms, hloop, hassigns⟩ := ih (hapart.perm hperm)
      (hunused.subset fun mv' hmv' => hperm.mem_iff.mpr hmv')
    exact ⟨stms, hloop, hassigns.congr fun mv' => hperm.mem_iff⟩
  | case5 hard moves changed n mv mvs hhard ih =>
    obtain ⟨stms, hloop, hassigns⟩ := ih (List.pairwise_cons.mp hapart).2
      (hunused.subset (List.subset_cons_self _ _))
    refine ⟨(A.move mv).toList ++ stms, ?_, hassigns.cons hm hapart hunused fun mv' hmv' => ?_⟩
    · rw [hloop, Args.reverse_emit, List.append_assoc]
    · simp only [Args.isHard, Bool.or_eq_true, List.any_eq_true, not_or, not_exists, not_and,
        Bool.not_eq_true] at hhard
      rcases List.mem_append.mp hmv' with hin | hin
      · exact hhard.1 mv' hin
      · exact hhard.2 mv' hin

/-- The moves that are left when those from a temporary to itself are dropped. -/
theorem foldl_equals : ∀ {moves mvs : List (Move L)},
    moves.foldl (fun mvs mv => if A.equals mv.src mv.dst then mvs else mv :: mvs) mvs =
      (moves.filter fun mv => !A.equals mv.src mv.dst).reverse ++ mvs
  | [], _ => rfl
  | mv :: moves, mvs => by
      rw [List.foldl_cons, foldl_equals, List.filter_cons]
      cases A.equals mv.src mv.dst <;> simp

/-- **`ParallelMove.move` is simultaneous assignment.**  From any state, every destination ends with what
its source held at the start, and whatever no destination interferes with and is no temporary that was
made on the way stays as it is. -/
theorem parallelMove_assigns (hm : Means A exec read Fits) {moves : List (Move L)} (hapart : Apart A moves)
    (hunused : Unused A moves 0) (st : S) (hfits : ∀ mv ∈ moves, Fits mv.dst (read mv.src st)) :
    (∀ mv ∈ moves, read mv.dst (run exec (A.parallelMove moves) st) = read mv.src st) ∧
      ∀ x, (∀ mv ∈ moves, A.interfere mv.dst x = false) → (∀ n l, x ≠ A.temp n l) →
        read x (run exec (A.parallelMove moves) st) = read x st := by
  have hkept : ∀ mv, mv ∈ (moves.filter fun mv => !A.equals mv.src mv.dst).reverse ↔
      mv ∈ moves ∧ A.equals mv.src mv.dst = false := by simp
  have hapart' : Apart A (moves.filter fun mv => !A.equals mv.src mv.dst).reverse :=
    Apart.perm (List.Pairwise.filter _ hapart) (List.reverse_perm _).symm
  have hunused' : Unused A (moves.filter fun mv => !A.equals mv.src mv.dst).reverse 0 :=
    hunused.subset fun mv hmv => ((hkept mv).mp hmv).1
  obtain ⟨stms, hloop, hassigns⟩ := loop_assigns hm (moves.filter fun mv => !A.equals mv.src mv.dst).reverse
    [] [] false 0 (by rwa [List.append_nil]) (by rwa [List.append_nil])
  rw [List.append_nil] at hassigns
  have hmove : A.parallelMove moves = stms := by
    rw [Args.parallelMove, foldl_equals, List.append_nil, hloop]
    rfl
  obtain ⟨hdst, hframe⟩ := hassigns st fun mv hmv => hfits mv ((hkept mv).mp hmv).1
  rw [hmove]
  refine ⟨fun mv hmv => ?_, fun x hx hnew =>
    hframe x (fun mv hmv => hx mv ((hkept mv).mp hmv).1) fun n _ l => hnew n l⟩
  cases hequals : A.equals mv.src mv.dst with
  | false => exact hdst mv ((hkept mv).mpr ⟨hmv, hequals⟩)
  | true =>
    -- A move that was dropped: nobody writes its destination.
    rw [hframe mv.dst (fun mv' hmv' => ?_) fun n hn l => (hunused mv hmv n hn l).2]
    · exact (hm.equals hequals).symm
    · obtain ⟨hmv', hequals'⟩ := (hkept mv').mp hmv'
      have hne : mv' ≠ mv := by
        rintro rfl
        exact absurd hequals (by simp [hequals'])
      have hsymm : Std.Symm fun mv mv' : Move L =>
          A.interfere mv.dst mv'.dst = false ∧ A.interfere mv'.dst mv.dst = false := ⟨fun _ _ h => ⟨h.2, h.1⟩⟩
      exact (List.Pairwise.forall hapart hmv' hmv hne).1

/-! ## Registers -/

/-- Registers, of which those from 1000 on are temporaries. -/
def registers : Args ℕ (Move ℕ) where
  equals a b := a == b
  move mv := if mv.src = mv.dst then none else some mv
  interfere d s := d == s
  temp n _ := 1000 + n

/-- Move a register into another one. -/
def execMove (mv : Move ℕ) (st : ℕ → ℕ) : ℕ → ℕ := Function.update st mv.dst (st mv.src)

theorem registers_means : Means registers execMove (fun r st => st r) (fun _ _ => True) where
  equals h := by rw [eq_of_beq h]
  move {mv st} _ := by
    by_cases h : mv.src = mv.dst <;> simp [registers, run, execMove, h]
  interfere {mv x st} h := by
    have hne : x ≠ mv.dst := fun heq => by simp [registers, heq] at h
    by_cases h : mv.src = mv.dst <;> simp [registers, run, execMove, h, hne]
  fits := trivial
  fresh h := by
    simp only [registers] at h
    simp [registers, h, Ne.symm h]
  distinct h := by simpa [registers] using h

/-- A cycle of two registers, one of which goes to a third as well. -/
def swap : List (Move ℕ) := [⟨0, 1⟩, ⟨1, 0⟩, ⟨0, 2⟩]

theorem swap_apart : Apart registers swap := by simp [Apart, swap, registers]

theorem parallelMove_assigns_swap :
    (∀ mv ∈ swap, run execMove (registers.parallelMove swap) id mv.dst = id mv.src) ∧
      run execMove (registers.parallelMove swap) id 3 = 3 := by
  have hunused : Unused registers swap 0 := by
    intro mv hmv k _ l
    have hlt : mv.src < 1000 ∧ mv.dst < 1000 := by
      revert mv
      decide
    simp only [registers]
    omega
  obtain ⟨hdst, hframe⟩ := parallelMove_assigns registers_means swap_apart hunused id fun _ _ => trivial
  refine ⟨hdst, hframe 3 (by decide) fun n l => ?_⟩
  simp only [registers]
  omega

end MLton.ParallelMove
