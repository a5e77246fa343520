import Mathlib.Data.List.Induction
import MLton.Streams.Outstream

/-!
# Streams/OutstreamKept — what has been output is with the writer or in the buffer

`Sound` is what every operation keeps, but for a change of the mode that drops a buffer in use, or gives a
terminated stream a buffer with room (`Safe`).  What the operations deliver follows from it, and fails as
soon as a step is not safe (`outstream_iff`).
-/

namespace MLton.Streams

open Raises

variable {σ α : Type} {a : Arg α} {w : Writer σ α} {os os' : Outstream σ α} {out : List α} {buf : Buf α}

/-- What is in the buffer of an active stream. -/
def Outstream.contents (os : Outstream σ α) : List α :=
  match os.state, os.bufferMode.buf? with
  | .active, some buf => buf.array.take buf.size
  | _, _ => []

theorem contents_of_buf (hactive : os.state = .active) (hbuf : os.bufferMode.buf? = some buf) :
    os.contents = buf.array.take buf.size := by
  rw [Outstream.contents, hactive, hbuf]

theorem contents_of_none (hbuf : os.bufferMode.buf? = none) : os.contents = [] := by
  rw [Outstream.contents, hbuf]
  cases os.state <;> rfl

theorem contents_of_not_active (h : os.state ≠ .active) : os.contents = [] := by
  unfold Outstream.contents
  split
  · next hactive _ => exact absurd hactive h
  · rfl

namespace BufferMode

variable {mode : BufferMode α} {b : Buf α}

@[simp] theorem kind_setBuf : (mode.setBuf b).kind = mode.kind := by cases mode <;> rfl

theorem buf?_setBuf (h : mode.buf? = some buf) : (mode.setBuf b).buf? = some b := by
  cases mode with
  | noBuf => exact absurd h nofun
  | lineBuf | blockBuf => rfl

end BufferMode

theorem contents_setBuf (hactive : os.state = .active) (hbuf : os.bufferMode.buf? = some buf) (b : Buf α)
    (s : σ) (handed : List α) :
    Outstream.contents { os with world := s, handed := handed, bufferMode := os.bufferMode.setBuf b }
      = b.array.take b.size := by
  rw [Outstream.contents, hactive, BufferMode.buf?_setBuf hbuf]

/-! ## Flushing -/

theorem flushLoop_ends {write : List α → Raises Exn σ ℕ} (hwrite : Writer.Accepting write) :
    ∀ (k : ℕ) (xs : List α) (os : Outstream σ α), xs.length ≤ k →
      (flushLoop write k xs).Ends os
        (fun _ os' => ∃ s, os' = { os with world := s, handed := os.handed ++ xs }) fun _ _ => False
  | k, [], os, _ => by
    cases k <;> exact ⟨os.world, by rw [List.append_nil]⟩
  | 0, _ :: _, _, h => absurd h (by simp)
  | k + 1, x :: xs, os, h => by
    have htake := hwrite (x :: xs) os.world (List.cons_ne_nil _ _)
    simp only [flushLoop, outside, ends_bind, ends_zoom]
    refine htake.mono (fun j s hj => ?_) (fun _ _ h => h)
    rw [if_neg (Nat.pos_iff_ne_zero.mp hj.1)]
    simp only [ends_bind, ends_modify, if_pos hj.2]
    have hlen : ((x :: xs).drop j).length ≤ k := by
      rw [List.length_drop]
      omega
    refine (flushLoop_ends hwrite k _ _ hlen).mono (fun _ os' => ?_) fun _ _ h => h
    rintro ⟨s', rfl⟩
    exact ⟨s', by simp only [List.append_assoc, List.take_append_drop]⟩

theorem flushVec_ends (hw : w.Accepts) (xs : List α) :
    (flushVec w xs).Ends os
      (fun _ os' => ∃ s, os' = { os with world := s, handed := os.handed ++ xs }) fun _ _ => False := by
  obtain ⟨write, hwrite, haccept⟩ := hw.augmentWriter.1
  rw [flushVec, hwrite]
  exact flushLoop_ends haccept _ _ _ (Nat.le_refl _)

theorem flushArr_ends (hw : w.Accepts) (xs : List α) :
    (flushArr w xs).Ends os
      (fun _ os' => ∃ s, os' = { os with world := s, handed := os.handed ++ xs }) fun _ _ => False := by
  obtain ⟨write, hwrite, haccept⟩ := hw.augmentWriter.2
  rw [flushArr, hwrite]
  exact flushLoop_ends haccept _ _ _ (Nat.le_refl _)

/-- **A flush empties the buffer** into the writer. -/
theorem flushBuf_ends (hw : w.Accepts) (hfits : buf.size ≤ buf.array.length) :
    (flushBuf w buf).Ends os (fun _ os' => ∃ s, os' = { os with
      world := s
      bufferMode := os.bufferMode.setBuf { buf with size := 0 }
      handed := os.handed ++ buf.array.take buf.size }) fun _ _ => False := by
  simp only [flushBuf, setBuf, ends_bind, ends_modify, slice, if_pos hfits, ends_of_ok]
  exact flushArr_ends hw _

/-! ## What the operations keep -/

/-- **What is kept**: the elements output are with the writer or in the buffer, and a terminated stream has
no room. -/
structure Sound (w : Writer σ α) (os : Outstream σ α) (out : List α) : Prop where
  kept : os.handed ++ os.contents = out
  long : ∀ {buf}, os.bufferMode.buf? = some buf → (buf.array.length : ℤ) = w.chunkSize
  fits : ∀ {buf}, os.bufferMode.buf? = some buf → buf.size ≤ buf.array.length
  full : os.state ≠ .active → ∀ {buf}, os.bufferMode.buf? = some buf → buf.size = buf.array.length

/-- An active stream whose buffer has changed. -/
theorem Sound.setBuf {b : Buf α} {s : σ} {handed : List α} (h : Sound w os out) (hactive : os.state = .active)
    (hbuf : os.bufferMode.buf? = some buf) (hlen : b.array.length = buf.array.length)
    (hfits : b.size ≤ b.array.length) {out' : List α} (hkept : handed ++ b.array.take b.size = out') :
    Sound w { os with world := s, handed := handed, bufferMode := os.bufferMode.setBuf b } out' := by
  have hb := BufferMode.buf?_setBuf (b := b) hbuf
  refine ⟨?_, fun {c} hc => ?_, fun {c} hc => ?_, fun hno => absurd hactive hno⟩
  · rwa [contents_setBuf hactive hbuf]
  · obtain rfl := Option.some.inj (hb.symm.trans hc)
    rw [hlen]
    exact h.long hbuf
  · obtain rfl := Option.some.inj (hb.symm.trans hc)
    exact hfits

/-- Elements that go to the writer while the buffer is empty. -/
theorem Sound.handed {s : σ} {v : List α} (h : Sound w os out) (hempty : os.contents = []) :
    Sound w { os with world := s, handed := os.handed ++ v } (out ++ v) := by
  refine ⟨?_, h.long, h.fits, h.full⟩
  have hkept := h.kept
  rw [hempty, List.append_nil] at hkept
  have hempty' : ({ os with world := s, handed := os.handed ++ v } : Outstream σ α).contents = [] := hempty
  rw [hempty', List.append_nil, hkept]

section Operations

variable (hw : w.Accepts)

include hw

/-- The buffer of an active stream, flushed. -/
theorem Sound.flushBuf (h : Sound w os out) (hactive : os.state = .active)
    (hbuf : os.bufferMode.buf? = some buf) :
    (Streams.flushBuf w buf).Ends os (fun _ os' => Sound w os' out ∧ os'.state = os.state ∧
      os'.bufferMode = os.bufferMode.setBuf { buf with size := 0 } ∧ os'.contents = [])
      fun _ _ => False := by
  refine (flushBuf_ends hw (h.fits hbuf)).mono (fun _ os' => ?_) fun _ _ h => h
  rintro ⟨s, rfl⟩
  have hkept := h.kept
  rw [contents_of_buf hactive hbuf] at hkept
  refine ⟨h.setBuf (b := { buf with size := 0 }) hactive hbuf rfl (Nat.zero_le _) ?_, rfl, rfl, ?_⟩
  · rw [List.take_zero, List.append_nil, hkept]
  · rw [contents_setBuf hactive hbuf, List.take_zero]

/-- **`flushOut` delivers everything.** -/
theorem Sound.flushOut (h : Sound w os out) :
    (Streams.flushOut w).Ends os (fun _ os' => Sound w os' out ∧ os'.state = os.state ∧
      os'.bufferMode.kind = os.bufferMode.kind ∧ os'.contents = []) fun _ _ => False := by
  simp only [Streams.flushOut, ends_bind, ends_get]
  by_cases hactive : os.state = .active
  · rw [if_neg (not_not_intro hactive)]
    have hflush : ∀ {buf}, os.bufferMode.buf? = some buf → (Streams.flushBuf w buf).Ends os
        (fun _ os' => Sound w os' out ∧ os'.state = os.state ∧
          os'.bufferMode.kind = os.bufferMode.kind ∧ os'.contents = []) fun _ _ => False := by
      intro buf hbuf
      refine (h.flushBuf hw hactive hbuf).mono (fun _ os' => ?_) fun _ _ h => h
      rintro ⟨hs, hstate, hmode, hempty⟩
      exact ⟨hs, hstate, by rw [hmode, BufferMode.kind_setBuf], hempty⟩
    split
    · next hmode => exact ⟨h, rfl, rfl, contents_of_none (by rw [hmode]; rfl)⟩
    · next buf hmode => exact hflush (by rw [hmode]; rfl)
    · next buf hmode =>
      rw [ends_handle]
      exact (hflush (by rw [hmode]; rfl)).mono (fun _ _ h => h) fun _ _ h => h.elim
  · rw [if_pos hactive]
    exact ⟨h, rfl, rfl, contents_of_not_active hactive⟩

/-- Elements that go to a buffer. -/
theorem Sound.buffered (h : Sound w os out) (hactive : os.state = .active)
    (hbuf : os.bufferMode.buf? = some buf) (v : List α) (maybe : Bool) :
    (Streams.buffered a w v buf maybe).Ends os (fun _ os' => Sound w os' (out ++ v) ∧ os'.state = os.state)
      fun _ os' => Sound w os' out ∧ os'.state = os.state := by
  simp only [Streams.buffered, ends_bind]
  unfold Arg.add
  split
  · rw [ends_of_ok, ends_ite]
    refine ⟨fun _ => ?_, fun hroom => ?_⟩
    · rw [ends_bind]
      refine (h.flushBuf hw hactive hbuf).mono (fun _ os' => ?_) fun _ _ h => h.elim
      rintro ⟨hs, hstate, -, hempty⟩
      refine (flushVec_ends hw v).mono (fun _ os'' => ?_) fun _ _ h => h.elim
      rintro ⟨s, rfl⟩
      exact ⟨hs.handed hempty, hstate⟩
    · rw [not_or, Nat.not_le] at hroom
      have hlt := hroom.1
      simp only [copyVec, if_pos (Nat.le_of_lt hlt), Streams.setBuf]
      rw [ends_bind, ends_of_ok, ends_modify]
      have hkept := h.kept
      rw [contents_of_buf hactive hbuf] at hkept
      have hsize : (buf.array.take buf.size).length = buf.size := by
        rw [List.length_take]
        omega
      refine ⟨h.setBuf (s := os.world) hactive hbuf ?_ ?_ ?_, rfl⟩
      · simp only [List.length_append, List.length_take, List.length_drop]
        omega
      · simp only [List.length_append, List.length_take, List.length_drop]
        omega
      · have htake : buf.size + v.length = (buf.array.take buf.size ++ v).length := by
          rw [List.length_append, hsize]
        rw [← hkept, htake, List.take_left, List.append_assoc]
  · exact ⟨h, rfl⟩

/-- **`output`** of an active stream. -/
theorem Sound.output (h : Sound w os out) (hactive : os.state = .active) (v : List α) :
    (Streams.output a w v).Ends os (fun _ os' => Sound w os' (out ++ v) ∧ os'.state = os.state)
      fun _ os' => Sound w os' out ∧ os'.state = os.state := by
  simp only [Streams.output, ends_bind, ends_get, if_neg (not_not_intro hactive), ends_handle, liftExn,
    ends_raise]
  split
  · next hmode =>
    refine (flushVec_ends hw v).mono (fun _ os' => ?_) fun _ _ h => h.elim
    rintro ⟨s, rfl⟩
    exact ⟨h.handed (contents_of_none (by rw [hmode]; rfl)), rfl⟩
  · next buf hmode => exact h.buffered hw hactive (by rw [hmode]; rfl) v _
  · next buf hmode => exact h.buffered hw hactive (by rw [hmode]; rfl) v _

omit hw in
theorem Sound.store {b : Buf α} {c : α} {i : ℕ} (h : Sound w os out) (hactive : os.state = .active)
    (hbuf : os.bufferMode.buf? = some b) (hi : i < b.array.length)
    (hkept : os.handed ++ b.array.take i = out) :
    Sound w { os with bufferMode := os.bufferMode.setBuf { array := b.array.set i c, size := 1 + i } }
      (out ++ [c]) := by
  have hlen : (b.array.set i c).length = b.array.length := List.length_set ..
  refine h.setBuf (s := os.world) hactive hbuf hlen ?_ ?_
  · change 1 + i ≤ (b.array.set i c).length
    omega
  · have hset : (b.array.set i c).take (1 + i) = b.array.take i ++ [c] := by
      have hle : (b.array.take i).length ≤ i := List.length_take_le ..
      rw [Nat.add_comm, List.take_add_one, List.take_set, List.set_eq_of_length_le hle,
        List.getElem?_set_self hi]
      rfl
    rw [hset, ← hkept, List.append_assoc]

/-- One element that goes to a buffer. -/
theorem Sound.update1 (h : Sound w os out) (hactive : os.state = .active)
    (hbuf : os.bufferMode.buf? = some buf) (c : α) :
    (Streams.update1 w c buf).Ends os (fun _ os' => Sound w os' (out ++ [c]) ∧ os'.state = os.state)
      fun _ os' => Sound w os' out ∧ os'.state = os.state := by
  have hkept := h.kept
  rw [contents_of_buf hactive hbuf] at hkept
  simp only [Streams.update1, ends_handle, ends_bind]
  by_cases hroom : buf.size < buf.array.length
  · simp only [update, if_pos hroom, ends_of_ok, Streams.setBuf, ends_modify]
    exact ⟨h.store hactive hbuf hroom hkept, trivial⟩
  · simp only [update, if_neg hroom, ends_of_error, ensureActive, ends_bind, ends_get, if_pos hactive,
      ends_pure, Streams.flush, ends_handle, liftExn, ends_raise]
    refine (h.flushBuf hw hactive hbuf).mono (fun _ os' => ?_) fun _ _ h => h.elim
    rintro ⟨hs, hstate, hmode, hempty⟩
    have hactive' := hstate.trans hactive
    have hbuf' : os'.bufferMode.buf? = some { buf with size := 0 } := by
      rw [hmode]
      exact BufferMode.buf?_setBuf hbuf
    split
    · next hzero =>
      rw [ends_of_ok, Streams.setBuf, ends_modify]
      refine ⟨hs.store (b := { buf with size := 0 }) hactive' hbuf' hzero ?_, hstate⟩
      have hkept' := hs.kept
      rwa [hempty] at hkept'
    · exact ⟨hs, hstate⟩

/-- **`output1`** of an active stream. -/
theorem Sound.output1 (h : Sound w os out) (hactive : os.state = .active) (c : α) :
    (Streams.output1 a w c).Ends os (fun _ os' => Sound w os' (out ++ [c]) ∧ os'.state = os.state)
      fun _ os' => Sound w os' out ∧ os'.state = os.state := by
  simp only [Streams.output1, ends_bind, ends_get]
  split
  · next buf hmode => exact h.update1 hw hactive (by rw [hmode]; rfl) c
  · next buf hmode =>
    rw [ends_bind]
    refine (h.update1 hw hactive (by rw [hmode]; rfl) c).mono (fun _ os' => ?_) fun _ _ h => h
    rintro ⟨hs, hstate⟩
    split
    · exact ⟨hs, hstate⟩
    · rw [ends_ite]
      refine ⟨fun _ => ?_, fun _ => ⟨hs, hstate⟩⟩
      rw [ends_bind, ends_get]
      split
      · next buf' hbuf' =>
        rw [Streams.flush, ends_handle]
        refine (hs.flushBuf hw (hstate.trans hactive) hbuf').mono (fun _ os'' => ?_) fun _ _ h => h.elim
        rintro ⟨hs', hstate', -, -⟩
        exact ⟨hs', hstate'.trans hstate⟩
      · exact ⟨hs, hstate⟩
  · next hmode =>
    simp only [ensureActive, ends_bind, ends_get, if_pos hactive, ends_pure]
    refine (flushArr_ends hw [c]).mono (fun _ os' => ?_) fun _ _ h => h.elim
    rintro ⟨s, rfl⟩
    exact ⟨h.handed (contents_of_none (by rw [hmode]; rfl)), rfl⟩

omit hw in
/-- A stream that becomes terminated has nothing in its buffer. -/
theorem Sound.makeTerminated (h : Sound w os out) (hempty : os.contents = []) {state : OutState}
    (hstate : state ≠ .active) :
    (Streams.makeTerminated).Ends { os with state := state }
      (fun _ os' => Sound w os' out ∧ os'.state = state) fun _ _ => False := by
  have hkept := h.kept
  rw [hempty, List.append_nil] at hkept
  have hout : ∀ os' : Outstream σ α, os'.state = state → os'.handed = os.handed →
      os'.handed ++ os'.contents = out := by
    intro os' hs hhanded
    rw [contents_of_not_active (hs ▸ hstate), hhanded, List.append_nil, hkept]
  simp only [Streams.makeTerminated, ends_bind, ends_get]
  split
  · next buf hbuf =>
    have hb := BufferMode.buf?_setBuf (b := { buf with size := buf.array.length }) hbuf
    rw [Streams.setBuf, ends_modify]
    refine ⟨⟨hout _ rfl rfl, fun {c} hc => ?_, fun {c} hc => ?_, fun _ {c} hc => ?_⟩, rfl⟩
    · rw [← Option.some.inj (hb.symm.trans hc)]
      change (buf.array.length : ℤ) = w.chunkSize
      exact h.long hbuf
    · obtain rfl := Option.some.inj (hb.symm.trans hc)
      exact Nat.le_refl _
    · obtain rfl := Option.some.inj (hb.symm.trans hc)
      rfl
  · next hnone =>
    have hno : ∀ {buf} {P : Prop}, os.bufferMode.buf? = some buf → P := fun hbuf =>
      absurd (hnone.symm.trans hbuf) (by rintro ⟨⟩)
    exact ⟨⟨hout _ rfl rfl, fun hbuf => hno hbuf, fun hbuf => hno hbuf, fun _ _ hbuf => hno hbuf⟩, rfl⟩

/-- **`closeOut`** delivers everything, also where the writer cannot be closed. -/
theorem Sound.closeOut (h : Sound w os out) :
    (Streams.closeOut w).Ends os
      (fun _ os' => Sound w os' out ∧ os'.state ≠ .active ∧ os'.contents = [])
      fun _ os' => Sound w os' out ∧ os'.state = os.state ∧ os'.contents = [] := by
  simp only [Streams.closeOut, ends_bind, ends_get, ends_ite, ends_pure, ends_handle, liftExn, ends_raise]
  have hterminate : ∀ {os'}, Sound w os' out → os'.contents = [] →
      (Streams.makeTerminated).Ends { os' with state := .closed }
        (fun _ os' => Sound w os' out ∧ os'.state ≠ .active ∧ os'.contents = [])
        fun _ os' => Sound w os' out ∧ os'.state = os.state ∧ os'.contents = [] := by
    intro os' hs hempty
    refine (hs.makeTerminated hempty (OutState.noConfusion : OutState.closed ≠ .active)).mono (fun _ os'' => ?_) fun _ _ h => h.elim
    rintro ⟨hs', hstate⟩
    have hnot : os''.state ≠ .active := by
      rw [hstate]
      exact (by rintro ⟨⟩)
    exact ⟨hs', hnot, contents_of_not_active hnot⟩
  refine ⟨fun hclosed => ?_, fun _ => ?_⟩
  · have hnot : os.state ≠ .active := by
      rw [hclosed]
      exact (by rintro ⟨⟩)
    exact ⟨h, hnot, contents_of_not_active hnot⟩
  · refine (h.flushOut hw).mono (fun _ os' => ?_) fun _ _ h => h.elim
    rintro ⟨hs, hstate, -, hempty⟩
    refine ⟨fun _ => hterminate hs hempty, fun _ => ?_⟩
    have hworld : ∀ s, Sound w { os' with world := s } out := fun s =>
      ⟨hs.kept, hs.long, hs.fits, hs.full⟩
    rw [outside, ends_zoom]
    unfold Ends
    split
    · next s _ => exact hterminate (hworld s) hempty
    · next s _ => exact ⟨hworld s, hstate, hempty⟩

/-- **`getWriter`** delivers everything. -/
theorem Sound.getWriter (h : Sound w os out) :
    (Streams.getWriter w).Ends os (fun _ os' => Sound w os' out ∧ os'.state ≠ .active)
      fun _ os' => os' = os := by
  simp only [Streams.getWriter, ends_bind, ends_get, ends_ite, liftExn, ends_raise, ends_modify, ends_pure]
  refine ⟨fun _ => trivial, fun _ => ?_⟩
  refine (h.flushOut hw).mono (fun _ os' => ?_) fun _ _ h => h.elim
  rintro ⟨hs, -, -, hempty⟩
  refine (hs.makeTerminated hempty (OutState.noConfusion : OutState.terminated ≠ .active)).mono (fun _ os'' => ?_) fun _ _ h => h.elim
  rintro ⟨hs', hstate⟩
  exact ⟨hs', by rw [hstate]; exact (by rintro ⟨⟩)⟩

end Operations

/-! ## Safe steps -/

/-- A buffer of the writer's chunk size can be made, and has room. -/
def Roomy (a : Arg α) (w : Writer σ α) : Prop := 0 < w.chunkSize ∧ w.chunkSize ≤ a.maxLen

/-- **A safe operation**: a change of the mode neither drops a buffer in use nor gives a terminated stream a
buffer with room. -/
def Safe (a : Arg α) (w : Writer σ α) (os : Outstream σ α) : OutOp α → Prop
  | .setBufferMode mode => mode = .noBuf ∨ os.bufferMode.kind = mode ∨ ¬ Roomy a w ∨
      os.state = .active ∧ os.contents = []
  | _ => True

/-- A terminated stream raises, and changes nothing. -/
theorem Sound.run_terminated (h : Sound w os out) (hstate : os.state ≠ .active) {op : OutOp α}
    (hop : op.Outputs) : op.run a w os = (.error (.io w.name "output" .closedStream), os) := by
  refine Ends.eq_error ?_
  have hensure : (ensureActive w).Ends os (fun _ _ => False)
      fun e s => e = .io w.name "output" .closedStream ∧ s = os := by
    simp [ensureActive, hstate, liftExn]
  have hupdate : ∀ {buf} (c : α), os.bufferMode.buf? = some buf → (Streams.update1 w c buf).Ends os
      (fun _ _ => False) fun e s => e = .io w.name "output" .closedStream ∧ s = os := by
    intro buf c hbuf
    have hfull : ¬ buf.size < buf.array.length := Nat.not_lt_of_le (Nat.le_of_eq (h.full hstate hbuf).symm)
    simp only [Streams.update1, ends_handle, ends_bind, update, if_neg hfull, ends_of_error]
    exact hensure.mono (fun _ _ h => h.elim) fun _ _ h => h
  cases op with
  | output v | outputSlice v => simp [OutOp.run, Streams.output, outputSlice, hstate, liftExn]
  | output1 c =>
    simp only [OutOp.run, Streams.output1, ends_bind, ends_get]
    split
    · next buf hmode => exact hupdate c (congrArg BufferMode.buf? hmode)
    · next buf hmode =>
      rw [ends_bind]
      exact (hupdate c (congrArg BufferMode.buf? hmode)).mono (fun _ _ h => h.elim) fun _ _ h => h
    · rw [ends_bind]
      exact hensure.mono (fun _ _ h => h.elim) fun _ _ h => h
  | flushOut | setBufferMode | closeOut | getWriter => exact hop.elim

/-- New buffers are as long as the writer's chunks, and empty. -/
theorem newBuf_eq_ok {mode : BufferKind} {bufferMode : BufferMode α} (h : newBuf a w mode = .ok bufferMode) :
    bufferMode.kind = mode ∧ (mode ≠ .noBuf → 0 ≤ w.chunkSize ∧ w.chunkSize ≤ a.maxLen ∧
      bufferMode.buf? = some { array := List.replicate w.chunkSize.toNat a.someElem, size := 0 }) ∧
      (mode = .noBuf → bufferMode = .noBuf) := by
  have harray : ∀ {array}, a.array w.chunkSize = .ok array →
      (0 ≤ w.chunkSize ∧ w.chunkSize ≤ a.maxLen) ∧
        array = List.replicate w.chunkSize.toNat a.someElem := by
    intro array h
    unfold Arg.array at h
    split at h
    · next hle => exact ⟨hle, (Except.ok.inj h).symm⟩
    · exact absurd h nofun
  have hmap : ∀ {g : List α → BufferMode α}, (a.array w.chunkSize).map g = .ok bufferMode →
      (0 ≤ w.chunkSize ∧ w.chunkSize ≤ a.maxLen) ∧
        bufferMode = g (List.replicate w.chunkSize.toNat a.someElem) := by
    intro g h
    cases hr : a.array w.chunkSize with
    | error e =>
      rw [hr] at h
      exact absurd h nofun
    | ok array =>
      rw [hr] at h
      obtain ⟨hle, rfl⟩ := harray hr
      exact ⟨hle, (Except.ok.inj h).symm⟩
  cases mode with
  | noBuf =>
    obtain rfl := Except.ok.inj h
    exact ⟨rfl, fun hne => absurd rfl hne, fun _ => rfl⟩
  | lineBuf | blockBuf =>
    obtain ⟨hle, rfl⟩ := hmap h
    exact ⟨rfl, fun _ => ⟨hle.1, hle.2, rfl⟩, nofun⟩

/-- A new mode for a stream that has nothing in its buffer. -/
theorem Sound.newBuf (h : Sound w os out) (hempty : os.contents = []) {mode : BufferKind}
    {bufferMode : BufferMode α} (hnew : Streams.newBuf a w mode = .ok bufferMode)
    (hstate : os.state ≠ .active → mode = .noBuf ∨ ¬ Roomy a w) :
    Sound w { os with bufferMode := bufferMode } out := by
  obtain ⟨-, hsome, hnone⟩ := newBuf_eq_ok hnew
  have hkept := h.kept
  rw [hempty, List.append_nil] at hkept
  by_cases hmode : mode = .noBuf
  · obtain rfl := hnone hmode
    have hcontents : ({ os with bufferMode := .noBuf } : Outstream σ α).contents = [] := contents_of_none rfl
    refine ⟨?_, nofun, nofun, fun _ {_} h => absurd h nofun⟩
    rw [hcontents, List.append_nil, hkept]
  · obtain ⟨hpos, hmax, hbuf⟩ := hsome hmode
    have hlen : ((List.replicate w.chunkSize.toNat a.someElem).length : ℤ) = w.chunkSize := by
      rw [List.length_replicate, Int.toNat_of_nonneg hpos]
    refine ⟨?_, fun {c} hc => ?_, fun {c} hc => ?_, fun hs {c} hc => ?_⟩
    · have hcontents : ({ os with bufferMode := bufferMode } : Outstream σ α).contents = [] := by
        by_cases hactive : os.state = .active
        · simp only [Outstream.contents, hactive, hbuf, List.take_zero]
        · exact contents_of_not_active hactive
      rw [hcontents, List.append_nil, hkept]
    · obtain rfl := Option.some.inj (hbuf.symm.trans hc)
      exact hlen
    · obtain rfl := Option.some.inj (hbuf.symm.trans hc)
      exact Nat.zero_le _
    · obtain rfl := Option.some.inj (hbuf.symm.trans hc)
      have hroomy := (hstate hs).resolve_left hmode
      rw [Roomy, not_and] at hroomy
      have hzero : w.chunkSize = 0 := by
        by_contra hne
        exact hroomy (by omega) hmax
      change 0 = (List.replicate w.chunkSize.toNat a.someElem).length
      rw [hzero]
      rfl

/-- **A safe change of the mode.** -/
theorem Sound.setBufferMode (hw : w.Accepts) (h : Sound w os out) {mode : BufferKind}
    (hsafe : Safe a w os (.setBufferMode mode)) :
    (Streams.setBufferMode a w mode).Ends os (fun _ os' => Sound w os' out ∧ os'.state = os.state)
      fun _ os' => os' = os := by
  by_cases hmode : mode = .noBuf
  · subst hmode
    simp only [Streams.setBufferMode, ends_bind, ends_modify]
    refine (h.flushOut hw).mono (fun _ os' => ?_) fun _ _ h => h.elim
    rintro ⟨hs, hstate, -, hempty⟩
    have hnew : Streams.newBuf a w .noBuf = .ok .noBuf := rfl
    exact ⟨hs.newBuf hempty hnew fun _ => .inl rfl, hstate⟩
  · have hsplit : Streams.setBufferMode a w mode = (do
        if (← get).bufferMode.kind = mode then pure ()
        else do
          let bufferMode ← of (Streams.newBuf a w mode)
          modify fun os => { os with bufferMode := bufferMode } : Raises Exn (Outstream σ α) Unit) := by
      cases mode with
      | noBuf => exact absurd rfl hmode
      | lineBuf | blockBuf => rfl
    rw [hsplit, ends_bind, ends_get]
    by_cases hkind : os.bufferMode.kind = mode
    · rw [if_pos hkind]
      exact ⟨h, rfl⟩
    · rw [if_neg hkind, ends_bind]
      have hsafe' := (hsafe.resolve_left hmode).resolve_left hkind
      cases hnew : Streams.newBuf a w mode with
      | error e => exact rfl
      | ok bufferMode =>
        rw [ends_of_ok, ends_modify]
        obtain ⟨-, hsome, -⟩ := newBuf_eq_ok hnew
        obtain ⟨hpos, hmax, -⟩ := hsome hmode
        have hempty : os.contents = [] := by
          obtain hroomy | ⟨-, hempty⟩ := hsafe'
          · -- without room there has never been anything in a buffer
            cases hbuf : os.bufferMode.buf? with
            | none => exact contents_of_none hbuf
            | some buf =>
              have hlong := h.long hbuf
              rw [Roomy, not_and] at hroomy
              have hzero : buf.array.length = 0 := by
                by_contra hne
                exact hroomy (by omega) hmax
              by_cases hactive : os.state = .active
              · rw [contents_of_buf hactive hbuf, List.length_eq_zero_iff.mp hzero, List.take_nil]
              · exact contents_of_not_active hactive
          · exact hempty
        refine ⟨h.newBuf hempty hnew fun hs => .inr ?_, rfl⟩
        exact hsafe'.resolve_right fun hactive => hs hactive.1

/-! ## Sessions -/

/-- **What a session promises**: nothing output is lost, flushing and closing deliver it, and a stream that
has been ended raises and changes nothing. -/
structure Delivers (a : Arg α) (w : Writer σ α) (s : Session σ α) : Prop where
  kept : s.os.handed ++ s.os.contents = s.output
  flushed : (flushOut w).Ends s.os (fun _ os => os.handed = s.output ∧ os.contents = []) fun _ _ => False
  closed : (closeOut w).Ends s.os (fun _ os => os.handed = s.output) fun _ os => os.handed = s.output
  ended : s.ended = true → ∀ op : OutOp α, op.Outputs →
    op.run a w s.os = (.error (.io w.name "output" .closedStream), s.os)

/-- What a session keeps. -/
structure Session.Sound (w : Writer σ α) (s : Session σ α) : Prop where
  sound : Streams.Sound w s.os s.output
  ended : s.ended = true ↔ s.os.state ≠ .active

section Sessions

variable {s : Session σ α} {op : OutOp α} {closed : Bool} {kind : BufferKind} {world : σ}

/-- What the session becomes, by how the operation ends. -/
theorem Session.step_of_ends {Q : Unit → Outstream σ α → Prop} {E : Exn → Outstream σ α → Prop}
    (h : (op.run a w).Ends s.os Q E) {P : Session σ α → Prop}
    (hok : ∀ os, Q () os → P { os := os, output := s.output ++ op.elements, ended := s.ended || op.ends })
    (herror : ∀ e os, E e os → P { s with os := os }) : P (s.step a w op) := by
  unfold Session.step
  unfold Ends at h
  split at h
  · next hr =>
    rw [hr]
    exact hok _ h
  · next hr =>
    rw [hr]
    exact herror _ _ h

theorem Session.Sound.delivers (hw : w.Accepts) (h : s.Sound w) : Delivers a w s := by
  have hkept : ∀ {os : Outstream σ α}, Streams.Sound w os s.output → os.contents = [] →
      os.handed = s.output := by
    intro os hs hempty
    have hkept := hs.kept
    rwa [hempty, List.append_nil] at hkept
  refine ⟨h.sound.kept, ?_, ?_, fun hended op hop => h.sound.run_terminated (h.ended.mp hended) hop⟩
  · refine (h.sound.flushOut hw).mono (fun _ os => ?_) fun _ _ h => h
    rintro ⟨hs, -, -, hempty⟩
    exact ⟨hkept hs hempty, hempty⟩
  · refine (h.sound.closeOut hw).mono (fun _ os => ?_) fun _ os => ?_
    · rintro ⟨hs, -, hempty⟩
      exact hkept hs hempty
    · rintro ⟨hs, -, hempty⟩
      exact hkept hs hempty

/-- **A safe operation** keeps the session sound. -/
theorem Session.Sound.step (hw : w.Accepts) (h : s.Sound w) (hsafe : Safe a w s.os op) :
    (s.step a w op).Sound w := by
  have hnil : ∀ {os}, Streams.Sound w os s.output → Streams.Sound w os (s.output ++ []) := fun hs => by
    rwa [List.append_nil]
  have hends : ∀ {os : Outstream σ α} {b : Bool}, b = false → os.state = s.os.state →
      ((s.ended || b) = true ↔ os.state ≠ .active) := fun hb hstate => by
    rw [hb, Bool.or_false, hstate]
    exact h.ended
  have houtput : op.Outputs → s.os.state = .active → ((op.run a w).Ends s.os
      (fun _ os => Streams.Sound w os (s.output ++ op.elements) ∧ os.state = s.os.state)
      fun _ os => Streams.Sound w os s.output ∧ os.state = s.os.state) := by
    intro hop hactive
    cases op with
    | output v | outputSlice v => exact h.sound.output hw hactive v
    | output1 c => exact h.sound.output1 hw hactive c
    | flushOut | setBufferMode | closeOut | getWriter => exact hop.elim
  by_cases hop : op.Outputs
  · by_cases hactive : s.os.state = .active
    · have hb : op.ends = false := by
        cases op with
        | output | outputSlice | output1 => rfl
        | flushOut | setBufferMode | closeOut | getWriter => exact hop.elim
      exact Session.step_of_ends (houtput hop hactive) (fun os ⟨hs, hstate⟩ => ⟨hs, hends hb hstate⟩)
        fun _ os ⟨hs, hstate⟩ => ⟨hs, hstate ▸ h.ended⟩
    · have hrun := h.sound.run_terminated (a := a) hactive hop
      rw [Session.step, hrun]
      exact h
  · cases op with
    | output | outputSlice | output1 => exact absurd trivial hop
    | flushOut =>
      have hrun : (OutOp.run a w .flushOut).Ends s.os (fun _ os => Streams.Sound w os s.output ∧
          os.state = s.os.state) fun _ _ => False :=
        (h.sound.flushOut hw).mono (fun _ _ hos => ⟨hos.1, hos.2.1⟩) fun _ _ h => h
      refine Session.step_of_ends hrun (fun os hos => ?_) fun _ _ h => h.elim
      exact ⟨hnil hos.1, hends rfl hos.2⟩
    | setBufferMode mode =>
      have hrun : (OutOp.run a w (.setBufferMode mode)).Ends s.os (fun _ os =>
          Streams.Sound w os s.output ∧ os.state = s.os.state) fun _ os => os = s.os :=
        h.sound.setBufferMode hw hsafe
      refine Session.step_of_ends hrun (fun os hos => ?_) fun _ os hos => ?_
      · exact ⟨hnil hos.1, hends rfl hos.2⟩
      · exact hos ▸ h
    | closeOut =>
      have hrun : (OutOp.run a w .closeOut).Ends s.os (fun _ os => Streams.Sound w os s.output ∧
          os.state ≠ .active ∧ os.contents = []) fun _ os => Streams.Sound w os s.output ∧
          os.state = s.os.state ∧ os.contents = [] := h.sound.closeOut hw
      refine Session.step_of_ends hrun (fun os hos => ?_) fun _ os hos => ?_
      · exact ⟨hnil hos.1, by simp [OutOp.ends, hos.2.1]⟩
      · exact ⟨hos.1, hos.2.1 ▸ h.ended⟩
    | getWriter =>
      have hrun : (OutOp.run a w .getWriter).Ends s.os (fun _ os => Streams.Sound w os s.output ∧
          os.state ≠ .active) fun _ os => os = s.os := by
        simp only [OutOp.run, ends_bind, ends_pure]
        exact h.sound.getWriter hw
      refine Session.step_of_ends hrun (fun os hos => ?_) fun _ os hos => ?_
      · exact ⟨hnil hos.1, by simp [OutOp.ends, hos.2]⟩
      · exact hos ▸ h

/-- A buffer with room takes an element, whatever the state of the stream. -/
theorem output1_of_room (hw : w.Accepts) {c : α} (hbuf : os.bufferMode.buf? = some buf)
    (hroom : buf.size < buf.array.length) :
    (output1 a w c).Ends os (fun _ _ => True) fun _ _ => False := by
  have hupdate : (update1 w c buf).Ends os (fun _ os' => ∃ b, os'.bufferMode.buf? = some b ∧
      b.size ≤ b.array.length) fun _ _ => False := by
    simp only [update1, ends_handle, ends_bind, update, if_pos hroom, ends_of_ok, setBuf, ends_modify]
    have hlen : (buf.array.set buf.size c).length = buf.array.length := List.length_set ..
    refine ⟨_, BufferMode.buf?_setBuf hbuf, ?_⟩
    change 1 + buf.size ≤ (buf.array.set buf.size c).length
    omega
  simp only [output1, ends_bind, ends_get]
  split
  · next b hmode =>
    obtain rfl : b = buf := Option.some.inj ((congrArg BufferMode.buf? hmode).symm.trans hbuf)
    exact hupdate.mono (fun _ _ _ => trivial) fun _ _ h => h
  · next b hmode =>
    obtain rfl : b = buf := Option.some.inj ((congrArg BufferMode.buf? hmode).symm.trans hbuf)
    rw [ends_bind]
    refine hupdate.mono (fun _ os' => ?_) fun _ _ h => h
    rintro ⟨b', hb', hfits⟩
    split
    · trivial
    · rw [ends_ite]
      refine ⟨fun _ => ?_, fun _ => trivial⟩
      simp only [ends_bind, ends_get, hb', flush, ends_handle]
      exact (flushBuf_ends hw hfits).mono (fun _ _ _ => trivial) fun _ _ h => h.elim
  · next hmode => exact absurd ((congrArg BufferMode.buf? hmode).symm.trans hbuf) (by rintro ⟨⟩)

/-- A stream that has been ended has no buffer with room. -/
theorem Delivers.not_room (hw : w.Accepts) (h : Delivers a w s) (hended : s.ended = true)
    (hbuf : s.os.bufferMode.buf? = some buf) : ¬ buf.size < buf.array.length := by
  intro hroom
  have hends := output1_of_room (a := a) (c := a.someElem) hw hbuf hroom
  have hrun := h.ended hended (.output1 a.someElem) trivial
  rw [OutOp.run] at hrun
  rw [Ends, hrun] at hends
  exact hends

theorem newBuf_of_roomy (hroomy : Roomy a w) (hkind : kind ≠ .noBuf) :
    ∃ bufferMode, newBuf a w kind = .ok bufferMode := by
  have harray : a.array w.chunkSize = .ok (List.replicate w.chunkSize.toNat a.someElem) := by
    rw [Arg.array, if_pos ⟨Int.le_of_lt hroomy.1, hroomy.2⟩]
  cases kind with
  | noBuf => exact absurd rfl hkind
  | lineBuf | blockBuf => exact ⟨_, by rw [newBuf, harray]; rfl⟩

theorem Roomy.length_pos (h : Roomy a w) : 0 < (List.replicate w.chunkSize.toNat a.someElem).length := by
  have hpos := h.1
  rw [List.length_replicate]
  omega

/-- **An operation that is not safe** breaks the promise. -/
theorem Session.Sound.safe_of_delivers (hw : w.Accepts) (h : s.Sound w)
    (hd : Delivers a w (s.step a w op)) : Safe a w s.os op := by
  by_contra hunsafe
  cases op with
  | output | outputSlice | output1 | flushOut | closeOut | getWriter => exact hunsafe trivial
  | setBufferMode mode =>
    simp only [Safe, not_or, not_not] at hunsafe
    obtain ⟨hmode, hkind, hroomy, hdrop⟩ := hunsafe
    obtain ⟨bufferMode, hnew⟩ := newBuf_of_roomy hroomy hmode
    obtain ⟨-, hsome, -⟩ := newBuf_eq_ok hnew
    obtain ⟨-, -, hbuf⟩ := hsome hmode
    have hstep : s.step a w (.setBufferMode mode)
        = { os := { s.os with bufferMode := bufferMode }, output := s.output, ended := s.ended } := by
      have hrun : Streams.setBufferMode a w mode s.os
          = (.ok (), { s.os with bufferMode := bufferMode }) := by
        refine Ends.eq_ok ?_
        cases mode with
        | noBuf => exact absurd rfl hmode
        | lineBuf | blockBuf =>
          simp only [Streams.setBufferMode, ends_bind, ends_get, if_neg hkind, hnew, ends_of_ok, ends_modify]
          trivial
      simp only [Session.step, OutOp.run, hrun, OutOp.elements, OutOp.ends, List.append_nil, Bool.or_false]
    rw [hstep] at hd
    by_cases hactive : s.os.state = .active
    · have hkept := hd.kept
      simp only [Outstream.contents, hactive, hbuf, List.take_zero, List.append_nil] at hkept
      rw [← h.sound.kept] at hkept
      exact hdrop ⟨hactive, (List.self_eq_append_right.mp hkept)⟩
    · exact hd.not_room hw (h.ended.mpr hactive) hbuf hroomy.length_pos

/-- A new stream is sound unless it is closed and has a buffer with room. -/
theorem sound_start (hos : mkOutstream' a w closed kind world = .ok os)
    (hclosed : closed = true → kind = .noBuf ∨ ¬ Roomy a w) : (start closed os).Sound w := by
  cases hnew : newBuf a w kind with
  | error e =>
    rw [mkOutstream', hnew] at hos
    exact absurd hos nofun
  | ok bufferMode =>
    rw [mkOutstream', hnew] at hos
    obtain rfl := Except.ok.inj hos
    have hempty : (⟨if closed = true then .closed else .active, .noBuf, world, []⟩ :
        Outstream σ α).contents = [] := contents_of_none rfl
    have hsound : Streams.Sound w (⟨if closed = true then .closed else .active, .noBuf, world, []⟩ :
        Outstream σ α) [] := by
      refine ⟨?_, nofun, nofun, fun _ {_} h => absurd h nofun⟩
      rw [hempty, List.append_nil]
    refine ⟨hsound.newBuf hempty hnew fun hstate => hclosed ?_, ?_⟩
    · by_contra hopen
      exact hstate (if_neg hopen)
    · cases closed <;> simp [start]

/-- **What outstreams deliver**: in a session everything that is promised holds at every moment if and only if
every step is safe, and the stream was not made closed with a buffer that has room. -/
theorem outstream_iff (hw : w.Accepts) (hos : mkOutstream' a w closed kind world = .ok os)
    (ops : List (OutOp α)) :
    (∀ ops', ops' <+: ops → Delivers a w ((start closed os).run a w ops')) ↔
      (closed = true → kind = .noBuf ∨ ¬ Roomy a w) ∧
        ∀ ops' op, ops' ++ [op] <+: ops → Safe a w ((start closed os).run a w ops').os op := by
  have hsnoc : ∀ ops' op, (start closed os).run a w (ops' ++ [op])
      = ((start closed os).run a w ops').step a w op := fun ops' op => by
    simp only [Session.run, List.foldl_append, List.foldl_cons, List.foldl_nil]
  have hshorter : ∀ {ops' : List (OutOp α)} {op}, ops' ++ [op] <+: ops → ops' <+: ops :=
    fun h => (List.prefix_append _ _).trans h
  constructor
  · intro hall
    have hclosed : closed = true → kind = .noBuf ∨ ¬ Roomy a w := by
      intro hclosed
      by_contra hno
      rw [not_or, not_not] at hno
      cases hnew : newBuf a w kind with
      | error e =>
        rw [mkOutstream', hnew] at hos
        exact absurd hos nofun
      | ok bufferMode =>
        obtain ⟨-, hsome, -⟩ := newBuf_eq_ok hnew
        obtain ⟨-, -, hbuf⟩ := hsome hno.1
        rw [mkOutstream', hnew] at hos
        obtain rfl := Except.ok.inj hos
        exact (hall [] (List.nil_prefix)).not_room hw hclosed hbuf hno.2.length_pos
    refine ⟨hclosed, ?_⟩
    -- up to each step the session is sound, so the step has to be safe
    have hsound : ∀ ops', ops' <+: ops → ((start closed os).run a w ops').Sound w := by
      intro ops'
      induction ops' using List.reverseRecOn with
      | nil => exact fun _ => sound_start hos hclosed
      | append_singleton ops' op ih =>
        intro hle
        have hs := ih (hshorter hle)
        rw [hsnoc]
        exact hs.step hw (hs.safe_of_delivers hw (hsnoc ops' op ▸ hall _ hle))
    intro ops' op hle
    exact (hsound ops' (hshorter hle)).safe_of_delivers hw (hsnoc ops' op ▸ hall _ hle)
  · rintro ⟨hclosed, hsafe⟩ ops' hle
    have hsound : ((start closed os).run a w ops').Sound w := by
      induction ops' using List.reverseRecOn with
      | nil => exact sound_start hos hclosed
      | append_singleton ops' op ih =>
        rw [hsnoc]
        exact (ih (hshorter hle)).step hw (hsafe ops' op hle)
    exact hsound.delivers hw

end Sessions

/-! ## A small stream -/

/-- Numbers, in vectors that are not too long. -/
def numbers : Arg ℕ := { line := none, maxInt := none, maxLen := 100, someElem := 0 }

/-- A writer that takes everything. -/
def takeAll : Writer Unit ℕ :=
  { block := none, canOutput := none, chunkSize := 4, close := pure (), name := "all",
    writeArr := none, writeArrNB := none, writeVec := some fun xs => pure xs.length, writeVecNB := none }

theorem takeAll_accepts : takeAll.Accepts := by
  refine ⟨nofun, fun write hwrite xs s hxs => ?_, nofun, .inr (.inl rfl)⟩
  obtain rfl := Option.some.inj hwrite
  exact ⟨List.length_pos_iff.mpr hxs, Nat.le_refl _⟩

theorem outstream_iff_numbers :
    ∃ os, mkOutstream' numbers takeAll false .blockBuf () = .ok os ∧
      ∀ ops', ops' <+: [.output [1, 2], .output1 3, .setBufferMode .noBuf, .closeOut] →
        Delivers numbers takeAll ((start false os).run numbers takeAll ops') := by
  have hos : mkOutstream' numbers takeAll false .blockBuf ()
      = .ok ⟨.active, .blockBuf ⟨[0, 0, 0, 0], 0⟩, (), []⟩ := rfl
  refine ⟨_, hos, (outstream_iff takeAll_accepts hos _).mpr ⟨nofun, fun ops' op hle => ?_⟩⟩
  have hop := hle.subset (List.mem_append_right ops' (List.mem_singleton_self op))
  simp only [List.mem_cons, List.not_mem_nil, or_false] at hop
  obtain rfl | rfl | rfl | rfl := hop
  · trivial
  · trivial
  · exact .inl rfl
  · trivial

/-- A change from one buffer to another loses what is in the first, and gives a closed stream a buffer. -/
theorem outstream_loses :
    ∃ os, mkOutstream' numbers takeAll false .blockBuf () = .ok os ∧
      ¬ Delivers numbers takeAll
        ((start false os).run numbers takeAll [.output [1], .setBufferMode .lineBuf]) ∧
      ¬ Delivers numbers takeAll
        ((start false os).run numbers takeAll [.closeOut, .setBufferMode .lineBuf]) := by
  refine ⟨_, rfl, fun h => ?_, fun h => ?_⟩
  · exact absurd h.kept (by decide)
  · exact h.not_room takeAll_accepts rfl rfl (by decide)

end MLton.Streams
