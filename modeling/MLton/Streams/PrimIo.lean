import Mathlib.Data.Int.Notation
import MLton.Machinery.Raises

/-!
# Streams/PrimIo — readers and writers

The primitive operations under the streams work on the world outside, which is a parameter.  A reader or
a writer has some of them, and `augmentWriter` makes others from those a writer has.
-/

namespace MLton.Streams

/-- Exceptions.  `other` is what readers and writers raise, and `unfinished` is no exception of the
source: it is how a loop ends that was not given enough steps. -/
inductive Exn where
  | blockingNotSupported
  | closedStream
  | fail (msg : String)
  | io (name function : String) (cause : Exn)
  | match_
  | nonblockingNotSupported
  | option
  | other (n : ℕ)
  | overflow
  | size
  | subscript
  | unfinished
deriving DecidableEq, Repr

/-- The structures that the functor for streams is given, and the largest `int` and vector. -/
structure Arg (α : Type) where
  line : Option ((α → Bool) × α)
  maxInt : Option ℕ
  maxLen : ℕ
  someElem : α

open Raises

section Vectors

variable {α τ : Type} (a : Arg α)

/-- A sum of two `int`s. -/
def Arg.add (m n : ℕ) : Except Exn ℕ :=
  if ∀ k ∈ a.maxInt, m + n ≤ k then .ok (m + n) else .error .overflow

/-- `A.array`, of `someElem`. -/
def Arg.array (n : ℤ) : Except Exn (List α) :=
  if 0 ≤ n ∧ n ≤ a.maxLen then .ok (List.replicate n.toNat a.someElem) else .error .size

/-- `V.concat`. -/
def Arg.concat (vs : List (List α)) : Except Exn (List α) :=
  if vs.flatten.length ≤ a.maxLen then .ok vs.flatten else .error .size

/-- `A.update`. -/
def update (xs : List α) (i : ℕ) (c : α) : Except Exn (List α) :=
  if i < xs.length then .ok (xs.set i c) else .error .subscript

/-- `A.copyVec`, with a destination that starts at `di`. -/
def copyVec (src dst : List α) (di : ℕ) : Except Exn (List α) :=
  if di + src.length ≤ dst.length then .ok (dst.take di ++ src ++ dst.drop (di + src.length))
  else .error .subscript

/-- The slice of the first elements. -/
def slice (xs : List α) (n : ℕ) : Except Exn (List α) :=
  if n ≤ xs.length then .ok (xs.take n) else .error .subscript

end Vectors

/-- `liftExn`. -/
def liftExn {τ β : Type} (name function : String) (cause : Exn) : Raises Exn τ β :=
  raise (.io name function cause)

/-- `valOf`. -/
def valOf {τ β : Type} : Option β → Raises Exn τ β
  | some b => pure b
  | none => raise .option

/-- `doBlock`: wait until it is possible. -/
def doBlock {σ β γ : Type} (f : γ → Raises Exn σ (Option β)) (block : Raises Exn σ Unit) (x : γ) :
    Raises Exn σ β := do
  block
  valOf (← f x)

/-- `doCanInput`: only if it is possible. -/
def doCanInput {σ β γ : Type} (f : γ → Raises Exn σ β) (canInput : Raises Exn σ Bool) (x : γ) :
    Raises Exn σ (Option β) := do
  if ← canInput then pure (some (← f x)) else pure none

/-- `augmentSeq`. -/
def augmentSeq {σ β γ : Type} (block : Option (Raises Exn σ Unit)) (can : Option (Raises Exn σ Bool))
    (seq : Option (γ → Raises Exn σ β)) (seqNB : Option (γ → Raises Exn σ (Option β))) :
    Option (γ → Raises Exn σ β) × Option (γ → Raises Exn σ (Option β)) :=
  match seq, seqNB with
  | some seq, some seqNB => (some seq, some seqNB)
  | none, some seqNB => (block.map (doBlock seqNB), some seqNB)
  | some seq, none => (some seq, can.map (doCanInput seq))
  | none, none => (none, none)

/-! ## Writers -/

/-- `writer`, without the operations on positions, which the streams' data does not depend on. -/
structure Writer (σ α : Type) where
  block : Option (Raises Exn σ Unit)
  canOutput : Option (Raises Exn σ Bool)
  chunkSize : ℤ
  close : Raises Exn σ Unit
  name : String
  writeArr : Option (List α → Raises Exn σ ℕ)
  writeArrNB : Option (List α → Raises Exn σ (Option ℕ))
  writeVec : Option (List α → Raises Exn σ ℕ)
  writeVecNB : Option (List α → Raises Exn σ (Option ℕ))

namespace Writer

variable {σ α β : Type}

/-- `augmentWrite`: slices of arrays and of vectors are written in one way. -/
def augmentWrite (writeVec writeArr : Option (List α → β)) :
    Option (List α → β) × Option (List α → β) :=
  match writeVec, writeArr with
  | some writeVec, some writeArr => (some writeVec, some writeArr)
  | none, some writeArr => (some writeArr, some writeArr)
  | some writeVec, none => (some writeVec, some writeVec)
  | none, none => (none, none)

/-- `augmentWriter`. -/
def augmentWriter (w : Writer σ α) : Writer σ α :=
  let (writeVec, writeArr) := augmentWrite w.writeVec w.writeArr
  let (writeVecNB, writeArrNB) := augmentWrite w.writeVecNB w.writeArrNB
  let (writeVec, writeVecNB) := augmentSeq w.block w.canOutput writeVec writeVecNB
  let (writeArr, writeArrNB) := augmentSeq w.block w.canOutput writeArr writeArrNB
  { w with writeVec := writeVec, writeArr := writeArr, writeVecNB := writeVecNB, writeArrNB := writeArrNB }

/-- The write takes some of what it is given, from the front. -/
def Accepting (write : List α → Raises Exn σ ℕ) : Prop :=
  ∀ xs s, xs ≠ [] → (write xs).Ends s (fun j _ => 0 < j ∧ j ≤ xs.length) fun _ _ => False

/-- **A writer whose writes accept a part of what they are given**: it has one, maybe by waiting until it
is possible, and none that does not. -/
structure Accepts (w : Writer σ α) : Prop where
  arr : ∀ write ∈ w.writeArr, Accepting write
  vec : ∀ write ∈ w.writeVec, Accepting write
  waiting : ∀ block ∈ w.block, ∀ write, write ∈ w.writeArrNB ∨ write ∈ w.writeVecNB →
    Accepting (doBlock write block)
  given : w.writeArr.isSome ∨ w.writeVec.isSome ∨
    w.block.isSome ∧ (w.writeArrNB.isSome ∨ w.writeVecNB.isSome)

/-- **The writer that is used** writes slices of vectors and of arrays. -/
theorem Accepts.augmentWriter {w : Writer σ α} (h : w.Accepts) :
    (∃ write, w.augmentWriter.writeVec = some write ∧ Accepting write) ∧
      ∃ write, w.augmentWriter.writeArr = some write ∧ Accepting write := by
  obtain ⟨harr, hvec, hwait, hgiven⟩ := h
  obtain ⟨block, can, chunk, close, name, arr, arrNB, vec, vecNB⟩ := w
  cases arr with
  | some arr =>
    cases vec with
    | some vec => exact ⟨⟨vec, by cases vecNB <;> cases arrNB <;> rfl, hvec _ rfl⟩,
        arr, by cases vecNB <;> cases arrNB <;> rfl, harr _ rfl⟩
    | none => exact ⟨⟨arr, by cases vecNB <;> cases arrNB <;> rfl, harr _ rfl⟩,
        arr, by cases vecNB <;> cases arrNB <;> rfl, harr _ rfl⟩
  | none =>
    cases vec with
    | some vec => exact ⟨⟨vec, by cases vecNB <;> cases arrNB <;> rfl, hvec _ rfl⟩,
        vec, by cases vecNB <;> cases arrNB <;> rfl, hvec _ rfl⟩
    | none =>
      cases block with
      | none => exact absurd hgiven (by simp)
      | some block =>
        cases arrNB with
        | some arrNB =>
          cases vecNB with
          | some vecNB => exact ⟨⟨_, rfl, hwait _ rfl _ (.inr rfl)⟩, _, rfl, hwait _ rfl _ (.inl rfl)⟩
          | none => exact ⟨⟨_, rfl, hwait _ rfl _ (.inl rfl)⟩, _, rfl, hwait _ rfl _ (.inl rfl)⟩
        | none =>
          cases vecNB with
          | some vecNB => exact ⟨⟨_, rfl, hwait _ rfl _ (.inr rfl)⟩, _, rfl, hwait _ rfl _ (.inr rfl)⟩
          | none => exact absurd hgiven (by simp)

end Writer

end MLton.Streams
