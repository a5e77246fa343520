import Mathlib.Logic.Relation
import MLton.Streams.InstreamKept

/-!
# Streams/InstreamFunctional — streams are functional while nothing is spliced in

In a run without a `canInput` that finds vectors, every read that has returned returns the same again, and
all that is read are segments of what the reader has delivered (`instream_functional`).  A `canInput` that
finds some puts a buffer into the list that the tail does not belong to.
-/

namespace MLton.Streams

open Raises

variable {σ α : Type} {a : Arg α} {r : Reader σ α} {s s' : Shared σ α} {is : Instream α}

/-! ## Asking for input -/

/-- **A calm operation**: a `canInput` at the end of the list finds no vector. -/
def Calm (a : Arg α) (r : Reader σ α) (s : Shared σ α) (is : Instream α) : InOp → Prop
  | .canInput n => ¬ (0 < n ∧ n ≤ a.maxLen ∧ is.buf.inp.length ≤ is.pos ∧ s.cells is.buf.next = .end_ ∧
      ∃ readVecNB, r.readVecNB = some readVecNB ∧
        ∃ v w, v ≠ [] ∧ readVecNB r.chunkSize s.world = (.ok (some v), w))
  | _ => True

/-- **A calm `canInput`** keeps the list. -/
theorem canInput_ends (hs : s.Sound) {rest : List (Option α)} (h : Ahead s is rest) (k : ℕ) {n : ℤ}
    (hcalm : Calm a r s is (.canInput n)) :
    (canInput a r k is n).Ends s (fun _ s' => s'.Sound ∧ s ≤ s') fun _ s' => s'.Sound ∧ s ≤ s' := by
  have hsame : s.Sound ∧ s ≤ s := ⟨hs, le_refl s⟩
  simp only [canInput, ends_ite, ends_raise, ends_pure, deref, ends_bind, ends_get]
  refine ⟨fun _ => hsame, fun hn => ⟨fun _ => hsame, fun hzero => ⟨fun _ => hsame, fun hpos => ?_⟩⟩⟩
  cases hcell : s.cells is.buf.next with
  | link | eos | truncated | closed => exact hsame
  | end_ =>
    obtain ⟨vs, hvs, -, -⟩ := h
    have htail := (hvs.eq_tail hcell).1
    simp only [extendNB, ends_bind]
    refine (extend_ends hs (htail ▸ hcell) "canInput" false).mono (fun o s' => ?_) fun _ _ h => h
    rintro ⟨hs', hle, hfound⟩
    cases o with
    | none => exact ⟨hs', hle⟩
    | some st =>
      obtain ⟨-, hst⟩ := hfound st rfl
      cases st with
      | eos | end_ | truncated | closed => exact ⟨hs', hle⟩
      | link buf =>
        obtain ⟨_, heq⟩ | hblock | hread := hst
        · exact absurd heq (by rintro ⟨⟩)
        · exact absurd hblock (by rintro ⟨⟩)
        · rw [not_or, Int.not_lt, Int.not_lt] at hn
          exact absurd ⟨by omega, hn.2, Nat.le_of_not_lt hpos, hcell, hread⟩ hcalm

/-! ## Loops with more rounds -/

section Rounds

theorem inputNLoop_rounds : ∀ {k k' : ℕ}, k ≤ k' → ∀ (buf : InBuf α) (inps : List (List α)) (n : ℕ),
    RefinedBy Exn.unfinished (inputNLoop a r k buf inps n) (inputNLoop a r k' buf inps n)
  | 0, _, _, _, _, _ => .raise _
  | k + 1, k' + 1, hk, buf, inps, n => by
    refine RefinedBy.bind (.refl _) fun st => ?_
    cases st with
    | link buf' =>
      simp only
      split
      · exact .refl _
      · exact inputNLoop_rounds (Nat.le_of_succ_le_succ hk) _ _ _
    | eos | end_ | truncated | closed => exact .refl _

theorem input1'_rounds : ∀ {k k' : ℕ}, k ≤ k' → ∀ is : Instream α,
    RefinedBy Exn.unfinished (input1' r k is) (input1' r k' is)
  | 0, _, _, _ => .raise _
  | k + 1, k' + 1, hk, is => by
    unfold input1'
    split
    · exact .refl _
    · refine RefinedBy.bind (.refl _) fun st => ?_
      cases st with
      | link buf => exact input1'_rounds (Nat.le_of_succ_le_succ hk) _
      | eos | end_ | truncated | closed => exact .refl _

theorem inputAllLoop_rounds : ∀ {k k' : ℕ}, k ≤ k' → ∀ (is : Instream α) (ac : List (List α)),
    RefinedBy Exn.unfinished (inputAllLoop a r k is ac) (inputAllLoop a r k' is ac)
  | 0, _, _, _, _ => .raise _
  | k + 1, k' + 1, hk, is, ac => by
    refine RefinedBy.bind (.refl _) fun res => ?_
    obtain ⟨inp, is'⟩ := res
    simp only
    split
    · exact .refl _
    · exact inputAllLoop_rounds (Nat.le_of_succ_le_succ hk) _ _

variable {isLine : α → Bool} {lineElem : α}

theorem inputLineLoop_rounds : ∀ {k k' : ℕ}, k ≤ k' → ∀ (buf : InBuf α) (inps : List (List α)),
    RefinedBy Exn.unfinished (inputLineLoop a r isLine lineElem k buf inps)
      (inputLineLoop a r isLine lineElem k' buf inps)
  | 0, _, _, _, _ => .raise _
  | k + 1, k' + 1, hk, buf, inps => by
    refine RefinedBy.bind (.refl _) fun st => ?_
    cases st with
    | link buf' =>
      simp only
      split
      · exact .refl _
      · exact inputLineLoop_rounds (Nat.le_of_succ_le_succ hk) _ _
    | eos | end_ | truncated | closed => exact .refl _

theorem inputLineFirst_rounds : ∀ {k k' : ℕ}, k ≤ k' → ∀ is : Instream α,
    RefinedBy Exn.unfinished (inputLineFirst a r isLine lineElem k is)
      (inputLineFirst a r isLine lineElem k' is)
  | 0, _, _, _ => .raise _
  | k + 1, k' + 1, hk, is => by
    have hk := Nat.le_of_succ_le_succ hk
    unfold inputLineFirst
    split
    · exact .refl _
    · split
      · exact inputLineLoop_rounds hk _ _
      · refine RefinedBy.bind (.refl _) fun st => ?_
        cases st with
        | link buf => exact inputLineFirst_rounds hk _
        | eos | end_ | truncated | closed => exact .refl _

/-- **More rounds change nothing** for a read that comes to an end. -/
theorem InOp.run_rounds {k k' : ℕ} (hk : k ≤ k') {op : InOp} (hop : op.Reading) :
    RefinedBy Exn.unfinished (op.run a r k is) (op.run a r k' is) := by
  cases op with
  | input | endOfStream => exact .refl _
  | input1 =>
    refine RefinedBy.bind ?_ fun _ => .refl _
    exact RefinedBy.bind (input1'_rounds hk is) fun _ => .refl _
  | inputN n =>
    refine RefinedBy.bind ?_ fun _ => .refl _
    unfold Streams.inputN
    split
    · exact .refl _
    · refine RefinedBy.bind (.refl _) fun l => ?_
      split
      · exact .refl _
      · exact inputNLoop_rounds hk _ _ _
  | inputLine =>
    refine RefinedBy.bind ?_ fun _ => .refl _
    unfold Streams.inputLine
    split
    · exact .refl _
    · exact inputLineFirst_rounds hk is
  | inputAll => exact RefinedBy.bind (inputAllLoop_rounds hk is []) fun _ => .refl _
  | canInput => exact hop.elim

end Rounds

/-! ## Runs -/

/-- An operation that has returned. -/
structure Entry (α : Type) where
  is : Instream α
  op : InOp
  res : InRes α
  next : Option (Instream α)

/-- A moment of a run: the operations that have returned, and what the streams share. -/
structure Moment (σ α : Type) where
  log : List (Entry α)
  shared : Shared σ α

/-- The streams there are: the first one, and those that operations have left. -/
def Moment.streams (is₀ : Instream α) (m : Moment σ α) : List (Instream α) :=
  is₀ :: m.log.filterMap Entry.next

/-- **One operation**, on any stream there is, that comes to an end. -/
inductive Step (a : Arg α) (r : Reader σ α) (allowed : Shared σ α → Instream α → InOp → Prop)
    (is₀ : Instream α) : Moment σ α → Moment σ α → Prop
  | returned {m : Moment σ α} {is : Instream α} {op : InOp} {k : ℕ} {res : InRes α}
      {next : Option (Instream α)} {s : Shared σ α} : is ∈ m.streams is₀ → allowed m.shared is op →
      op.run a r k is m.shared = (.ok (res, next), s) →
      Step a r allowed is₀ m ⟨m.log ++ [⟨is, op, res, next⟩], s⟩
  | raised {m : Moment σ α} {is : Instream α} {op : InOp} {k : ℕ} {e : Exn} {s : Shared σ α} :
      is ∈ m.streams is₀ → allowed m.shared is op → op.run a r k is m.shared = (.error e, s) →
      e ≠ .unfinished → Step a r allowed is₀ m ⟨m.log, s⟩

/-- A run. -/
abbrev Steps (a : Arg α) (r : Reader σ α) (allowed : Shared σ α → Instream α → InOp → Prop)
    (is₀ : Instream α) : Moment σ α → Moment σ α → Prop :=
  Relation.ReflTransGen (Step a r allowed is₀)

/-- **The streams are functional**: every read that has returned returns the same again, however long it
may take, and changes nothing; every stream stands somewhere in what has been delivered; and what has been
read are segments of it. -/
structure Functional (a : Arg α) (r : Reader σ α) (is₀ : Instream α) (m : Moment σ α) : Prop where
  again : ∀ e ∈ m.log, e.op.Reading →
    (∃ k, e.op.run a r k e.is m.shared = (.ok (e.res, e.next), m.shared)) ∧
    ∀ k, (e.op.run a r k e.is m.shared).1 ≠ .error .unfinished →
      e.op.run a r k e.is m.shared = (.ok (e.res, e.next), m.shared)
  placed : ∀ is ∈ m.streams is₀, ∃ p, At m.shared is p
  reads : ∀ e ∈ m.log, e.op.Reading → Reads a m.shared e.is e.res e.next

/-- What a run keeps. -/
structure Moment.Sound (a : Arg α) (r : Reader σ α) (is₀ : Instream α) (m : Moment σ α) : Prop where
  sound : m.shared.Sound
  placed : ∀ is ∈ m.streams is₀, ∃ p, At m.shared is p
  settled : ∀ e ∈ m.log, e.op.Reading → ∃ k, Settled (e.op.run a r k e.is) (e.res, e.next) m.shared
  reads : ∀ e ∈ m.log, e.op.Reading → Reads a m.shared e.is e.res e.next

section Runs

variable {is₀ : Instream α} {m m' : Moment σ α}

theorem Moment.Sound.functional (h : m.Sound a r is₀) : Functional a r is₀ m := by
  refine ⟨fun e he hop => ?_, h.placed, h.reads⟩
  obtain ⟨k, hk⟩ := h.settled e he hop
  have hrun := hk m.shared (le_refl _)
  refine ⟨⟨k, hrun⟩, fun k' hk' => ?_⟩
  obtain hle | hle := Nat.le_total k k'
  · have hne : (e.op.run a r k e.is m.shared).1 ≠ .error .unfinished := by
      rw [hrun]
      exact nofun
    exact (InOp.run_rounds hle hop _ hne).trans hrun
  · exact (InOp.run_rounds hle hop _ hk').symm.trans hrun

/-- What is kept while the list grows. -/
theorem Moment.Sound.grows (h : m.Sound a r is₀) (hs : s.Sound) (hle : m.shared ≤ s) :
    (⟨m.log, s⟩ : Moment σ α).Sound a r is₀ := by
  refine ⟨hs, fun is his => ?_, fun e he hop => ?_, fun e he hop => (h.reads e he hop).grows h.sound hle⟩
  · obtain ⟨p, hp⟩ := h.placed is his
    exact ⟨p, hp.grows hle⟩
  · obtain ⟨k, hk⟩ := h.settled e he hop
    exact ⟨k, hk.mono hle⟩

/-- **Calm operations keep what a run keeps.** -/
theorem Moment.Sound.step (h : m.Sound a r is₀) (hstep : Step a r (Calm a r) is₀ m m') :
    m'.Sound a r is₀ ∧ m.shared ≤ m'.shared := by
  have hcan : ∀ {is : Instream α} {n : ℤ} (k : ℕ), is ∈ m.streams is₀ → Calm a r m.shared is (.canInput n) →
      ((InOp.canInput n).run a r k is).Ends m.shared
        (fun res s => (s.Sound ∧ m.shared ≤ s) ∧ res.2 = none)
        fun _ s => s.Sound ∧ m.shared ≤ s := by
    intro is n k his hcalm
    obtain ⟨p, hp⟩ := h.placed is his
    simp only [InOp.run, ends_bind, ends_pure]
    exact (canInput_ends h.sound hp.2 k hcalm).mono (fun _ _ h => ⟨h, trivial⟩) fun _ _ h => h
  cases hstep with
  | @returned is op k res next s his hcalm hrun =>
    obtain ⟨p, hp⟩ := h.placed is his
    by_cases hop : op.Reading
    · have hends := InOp.run_settles (a := a) (r := r) h.sound hp k hop
      rw [Settles, Ends, hrun] at hends
      obtain ⟨hs, hle, hset, hreads⟩ := hends
      have hold := h.grows hs hle
      refine ⟨⟨hs, fun is' his' => ?_, fun e he hop' => ?_, fun e he hop' => ?_⟩, hle⟩
      · rw [streams, List.filterMap_append, ← List.cons_append] at his'
        obtain his' | his' := List.mem_append.mp his'
        · exact hold.placed is' his'
        · have hnext : next = some is' := by simpa using his'
          subst hnext
          match res, hreads with
          | .vector _, ⟨_, ⟨_, _, _, hp'⟩, _⟩ => exact ⟨_, hp'⟩
          | .elem (some _), ⟨_, _, _, hp'⟩ => exact ⟨_, hp'⟩
          | .line (some _), ⟨_, ⟨_, _, _, hp'⟩, _⟩ => exact ⟨_, hp'⟩
      · obtain he | he := List.mem_append.mp he
        · exact hold.settled e he hop'
        · rw [List.mem_singleton.mp he]
          exact ⟨k, hset⟩
      · obtain he | he := List.mem_append.mp he
        · exact hold.reads e he hop'
        · rw [List.mem_singleton.mp he]
          exact hreads
    · cases op with
      | canInput n =>
        have hends := hcan k his hcalm
        rw [Ends, hrun] at hends
        obtain ⟨⟨hs, hle⟩, hnext⟩ := hends
        obtain rfl : next = none := hnext
        have hold := h.grows hs hle
        have hlog : ∀ {e : Entry α}, e ∈ m.log ++ [⟨is, .canInput n, res, none⟩] → e.op.Reading → e ∈ m.log := by
          intro e he hop'
          obtain he | he := List.mem_append.mp he
          · exact he
          · rw [List.mem_singleton.mp he] at hop'
            exact hop'.elim
        refine ⟨⟨hs, fun is' his' => hold.placed is' ?_, fun e he hop' => hold.settled e (hlog he hop') hop',
          fun e he hop' => hold.reads e (hlog he hop') hop'⟩, hle⟩
        simpa [streams] using his'
      | input | input1 | inputN | inputLine | inputAll | endOfStream => exact absurd trivial hop
  | @raised is op k e s his hcalm hrun =>
    obtain ⟨p, hp⟩ := h.placed is his
    by_cases hop : op.Reading
    · have hends := InOp.run_settles (a := a) (r := r) h.sound hp k hop
      rw [Settles, Ends, hrun] at hends
      exact ⟨h.grows hends.1 hends.2, hends.2⟩
    · cases op with
      | canInput n =>
        have hends := hcan k his hcalm
        rw [Ends, hrun] at hends
        exact ⟨h.grows hends.1 hends.2, hends.2⟩
      | input | input1 | inputN | inputLine | inputAll | endOfStream => exact absurd trivial hop

theorem Moment.Sound.steps (h : m.Sound a r is₀) (hsteps : Steps a r (Calm a r) is₀ m m') :
    m'.Sound a r is₀ ∧ m.shared ≤ m'.shared := by
  induction hsteps with
  | refl => exact ⟨h, le_refl _⟩
  | tail _ hstep ih =>
    obtain ⟨hsound, hle⟩ := ih.1.step hstep
    exact ⟨hsound, ih.2.trans hle⟩

theorem Moment.sound_start (contents : Option (Bool × List α)) (closed : Bool) (world : σ) :
    (⟨[], (mkInstream' contents closed world).2⟩ : Moment σ α).Sound a r (mkInstream' contents closed world).1 := by
  have hcell : ∀ buf : InBuf α, (if closed = true then InState.closed else .end_) ≠ .link buf ∧
      (if closed = true then InState.closed else .end_) ≠ .eos buf := by
    intro buf
    cases closed <;> exact ⟨nofun, nofun⟩
  have hplaced : ∀ {m : Moment σ α} {is₀ : Instream α}, m.log = [] → At m.shared is₀ 0 → m.shared.Sound →
      m.Sound a r is₀ := by
    intro m is₀ hlog hat hs
    refine ⟨hs, fun is his => ?_, fun e he => ?_, fun e he => ?_⟩
    · rw [streams, hlog] at his
      obtain rfl := List.mem_singleton.mp his
      exact ⟨0, hat⟩
    · rw [hlog] at he
      exact absurd he List.not_mem_nil
    · rw [hlog] at he
      exact absurd he List.not_mem_nil
  have hcells : ∀ next, 1 ≤ next → (if next = 0 then (if closed = true then InState.closed else .end_)
      else .end_ : InState α) = .end_ := fun next hn => if_neg (Nat.ne_of_gt hn)
  match contents with
  | none =>
    refine hplaced rfl ⟨Nat.zero_le _, [], Behind.tail, Nat.le_refl _, rfl⟩ ⟨hcells, Nat.one_pos, hcell⟩
  | some (_, v) =>
    unfold mkInstream'
    simp only
    split
    · next hv =>
      obtain rfl := List.length_eq_zero_iff.mp hv
      have hshared : ∀ s : Shared σ α, s.cells 1 = .eos { inp := [], next := 0 } → s.tail = 0 → s.fresh = 2 →
          s.delivered = [[]] → (∀ next, next ≠ 1 → s.cells next
            = if next = 0 then (if closed = true then InState.closed else .end_) else .end_) →
          s.Sound ∧ At s { pos := 0, buf := { inp := [], next := 1 } } 0 := by
        intro s hone htail hfresh hdelivered hother
        have hbehind : Behind s 1 [[]] := .eos hone rfl (htail ▸ Behind.tail)
        refine ⟨⟨fun next hn => ?_, by omega, fun buf => ?_⟩, Nat.zero_le _, [[]], hbehind, Nat.le_refl _, ?_⟩
        · rw [hother next (by omega)]
          exact hcells next (by omega)
        · rw [htail, hother 0 (by decide)]
          exact hcell buf
        · rw [hdelivered]
          rfl
      obtain ⟨hs, hat⟩ := hshared (mkInstream' (some (true, ([] : List α))) closed world).2
        rfl rfl rfl rfl fun next hne => by simp [mkInstream', hne]
      exact hplaced rfl hat hs
    · next hv =>
      have hne : v ≠ [] := fun hnil => hv (List.length_eq_zero_iff.mpr hnil)
      refine hplaced rfl ⟨Nat.zero_le _, [], Behind.tail, Nat.zero_le _, ?_⟩ ⟨hcells, Nat.one_pos, hcell⟩
      exact items_cons hne

/-- **Streams are functional** in every run without a `canInput` that finds vectors, from its start on: and
no stream ever stands anywhere else than where it stood. -/
theorem instream_functional {contents : Option (Bool × List α)} {closed : Bool} {world : σ}
    (h : Steps a r (Calm a r) (mkInstream' contents closed world).1
      ⟨[], (mkInstream' contents closed world).2⟩ m)
    (h' : Steps a r (Calm a r) (mkInstream' contents closed world).1 m m') :
    Functional a r (mkInstream' contents closed world).1 m ∧
      (∃ vs, m'.shared.delivered = m.shared.delivered ++ vs) ∧
      ∀ is p, At m.shared is p → At m'.shared is p := by
  have hm := (Moment.sound_start contents closed world).steps h
  have hm' := hm.1.steps h'
  obtain ⟨vs, hvs, -⟩ := hm'.2.behind
  exact ⟨hm.1.functional, ⟨vs, hvs⟩, fun is p hp => hp.grows hm'.2⟩

end Runs

/-! ## A small file -/

/-- The moment after an operation, within a number of rounds. -/
def Moment.play (a : Arg α) (r : Reader σ α) (k : ℕ) (m : Moment σ α) (is : Instream α) (op : InOp) :
    Moment σ α :=
  match op.run a r k is m.shared with
  | (.ok (res, next), s) => ⟨m.log ++ [⟨is, op, res, next⟩], s⟩
  | (.error _, s) => ⟨m.log, s⟩

theorem step_play {allowed : Shared σ α → Instream α → InOp → Prop} {is₀ : Instream α} {m : Moment σ α}
    {op : InOp} {k : ℕ} (his : is ∈ m.streams is₀) (hallowed : allowed m.shared is op)
    (hok : (op.run a r k is m.shared).1.isOk = true) : Step a r allowed is₀ m (m.play a r k is op) := by
  unfold Moment.play
  cases hrun : op.run a r k is m.shared with
  | mk res s =>
    cases res with
    | ok res => exact .returned his hallowed hrun
    | error e =>
      rw [hrun] at hok
      exact absurd hok nofun

/-- Bytes, in lines that end with 10. -/
def bytes : Arg ℕ := { line := some (fun c => c = 10, 10), maxInt := none, maxLen := 100, someElem := 0 }

/-- Take the first vector, if there is one. -/
def nextVector : Raises Exn (List (List ℕ)) (List ℕ)
  | [] => (.ok [], [])
  | v :: vs => (.ok v, vs)

/-- A reader that delivers vectors one by one, and is at the end of the stream when there are none. -/
def oneByOne : Reader (List (List ℕ)) ℕ :=
  { chunkSize := 4, name := "vectors", readVec := some fun _ => nextVector
    readVecNB := some fun _ => do pure (some (← nextVector)) }

/-- The first stream of a file. -/
def firstOf (world : List (List ℕ)) : Instream ℕ := (mkInstream' none false world).1

/-- The run of a file before any operation. -/
def before (world : List (List ℕ)) : Moment (List (List ℕ)) ℕ := ⟨[], (mkInstream' none false world).2⟩

theorem instream_functional_bytes :
    Functional bytes oneByOne (firstOf [[1], [2]])
      ((before [[1], [2]]).play bytes oneByOne 2 (firstOf [[1], [2]]) (.inputN 2)) := by
  have hstep : Step bytes oneByOne (Calm bytes oneByOne) (firstOf [[1], [2]]) (before [[1], [2]])
      ((before [[1], [2]]).play bytes oneByOne 2 (firstOf [[1], [2]]) (.inputN 2)) :=
    step_play (List.mem_cons_self ..) trivial rfl
  exact (instream_functional (.single hstep) .refl).1

/-- After a `canInput` that finds two vectors and has to stop. -/
def asked : Moment (List (List ℕ)) ℕ :=
  (before [[1], [2], [], [3]]).play bytes oneByOne 5 (firstOf [[1], [2], [], [3]]) (.canInput 1)

/-- The two vectors have been read, as one. -/
def spliced : Moment (List (List ℕ)) ℕ := asked.play bytes oneByOne 0 (firstOf [[1], [2], [], [3]]) .input

/-- The end of the stream has been read behind them. -/
def readOn : Moment (List (List ℕ)) ℕ :=
  spliced.play bytes oneByOne 0 (updateBufEnd { inp := [1, 2], next := 3 }) .input

/-- After a `canInput` that has found vectors, the read behind them does not return the same again. -/
theorem instream_not_functional :
    Steps bytes oneByOne (fun _ _ _ => True) (firstOf [[1], [2], [], [3]]) (before [[1], [2], [], [3]]) readOn ∧
      ¬ Functional bytes oneByOne (firstOf [[1], [2], [], [3]]) readOn := by
  have hasked : Step bytes oneByOne (fun _ _ _ => True) (firstOf [[1], [2], [], [3]])
      (before [[1], [2], [], [3]]) asked := step_play (List.mem_cons_self ..) trivial rfl
  have hspliced : Step bytes oneByOne (fun _ _ _ => True) (firstOf [[1], [2], [], [3]]) asked spliced :=
    step_play (List.mem_cons_self ..) trivial rfl
  have hread : Step bytes oneByOne (fun _ _ _ => True) (firstOf [[1], [2], [], [3]]) spliced readOn :=
    step_play (List.mem_cons_of_mem _ (List.mem_singleton_self _)) trivial rfl
  refine ⟨.tail (.tail (.single hasked) hspliced) hread, fun h => ?_⟩
  obtain ⟨k, hk⟩ := (h.again ⟨updateBufEnd { inp := [1, 2], next := 3 }, .input, .vector [],
    some (updateBufBeg { inp := [], next := 4 })⟩ (List.mem_of_getElem? (i := 2) rfl) trivial).1
  exact absurd (congrArg Prod.fst hk) nofun

end MLton.Streams
