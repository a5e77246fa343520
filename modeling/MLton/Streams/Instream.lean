import MLton.Streams.PrimIo

/-!
# Streams/Instream — the input half of `StreamIOExtra`

The streams of one file share a list of buffers, linked by references, and a reference to its tail.  A
stream is a position in one of the buffers, and a read goes along the list and extends it where it ends.
-/

namespace MLton.Streams

open Raises

/-- `buf`, without its position in the file, which only `filePosIn` reads.  References are numbers. -/
structure InBuf (α : Type) where
  inp : List α
  next : ℕ

/-- `state`. -/
inductive InState (α : Type) where
  | link (buf : InBuf α)
  | eos (buf : InBuf α)
  | end_
  | truncated
  | closed

/-- What the streams of a file refer to, and the world outside.  `delivered` is no part of the source: it is
what the reader has given so far, and what it had given before. -/
structure Shared (σ α : Type) where
  cells : ℕ → InState α
  fresh : ℕ
  tail : ℕ
  world : σ
  delivered : List (List α)

/-- `instream`, without what the streams of a file have in common. -/
structure Instream (α : Type) where
  pos : ℕ
  buf : InBuf α

/-- The augmented reader: what there is of it is a parameter. -/
structure Reader (σ α : Type) where
  chunkSize : ℤ
  name : String
  readVec : Option (ℤ → Raises Exn σ (List α))
  readVecNB : Option (ℤ → Raises Exn σ (Option (List α)))

section Input

variable {σ α : Type} (a : Arg α) (r : Reader σ α)

/-- `updateBufEnd`. -/
def updateBufEnd (buf : InBuf α) : Instream α := { pos := buf.inp.length, buf := buf }

/-- `updateBufBeg`. -/
def updateBufBeg (buf : InBuf α) : Instream α := { pos := 0, buf := buf }

/-- What a reference refers to. -/
def deref (next : ℕ) : Raises Exn (Shared σ α) (InState α) := do
  pure ((← get).cells next)

/-- Assign to a reference. -/
def assign (next : ℕ) (st : InState α) : Raises Exn (Shared σ α) Unit :=
  modify fun s => { s with cells := Function.update s.cells next st }

/-- `ref End`. -/
def refEnd : Raises Exn (Shared σ α) ℕ := do
  let s ← get
  modify fun s => { s with cells := Function.update s.cells s.fresh .end_, fresh := s.fresh + 1 }
  pure s.fresh

/-- The `link` of `extend`. -/
def link (inp : List α) : Raises Exn (Shared σ α) (InState α) := do
  let next ← refEnd
  let this := if inp.length = 0 then .eos { inp := inp, next := next } else .link { inp := inp, next := next }
  assign (← get).tail this
  modify fun s => { s with tail := next, delivered := s.delivered ++ [inp] }
  pure this

/-- The `doit` of `extend`. -/
def readWith (function : String) (readVec : Raises Exn σ (Option (List α))) :
    Raises Exn (Shared σ α) (Option (InState α)) := do
  let inp ← Raises.handle (zoom Shared.world (fun w s => { s with world := w }) readVec)
    (liftExn r.name function)
  match inp with
  | none => pure none
  | some inp => do pure (some (← link inp))

/-- `extend`. -/
def extend (function : String) (blocking : Bool) : Raises Exn (Shared σ α) (Option (InState α)) := do
  let s ← get
  match s.cells s.tail with
  | .end_ =>
    if blocking = true then
      match r.readVec with
      | none => liftExn r.name function .blockingNotSupported
      | some readVec => readWith r function (do pure (some (← readVec r.chunkSize)))
    else
      match r.readVecNB with
      | none => liftExn r.name function .nonblockingNotSupported
      | some readVecNB => readWith r function (readVecNB r.chunkSize)
  | _ => liftExn r.name function .match_

/-- `extendB`. -/
def extendB (function : String) : Raises Exn (Shared σ α) (InState α) := do valOf (← extend r function true)

/-- `extendNB`. -/
def extendNB (function : String) : Raises Exn (Shared σ α) (Option (InState α)) := extend r function false

/-- How every `doit` of a read begins: what is behind a buffer, read if it is the end. -/
def doit (function : String) (next : ℕ) : Raises Exn (Shared σ α) (InState α) := do
  match ← deref next with
  | .end_ => extendB r function
  | st => pure st

/-- `input`. -/
def input (is : Instream α) : Raises Exn (Shared σ α) (List α × Instream α) :=
  if is.pos < is.buf.inp.length then pure (is.buf.inp.drop is.pos, updateBufEnd is.buf)
  else do
    match ← doit r "input" is.buf.next with
    | .link buf => pure (buf.inp, updateBufEnd buf)
    | .eos buf => pure ([], updateBufBeg buf)
    | _ => pure ([], is)

/-- The `finish` of a read. -/
def finish (inps : List (List α)) (is : Instream α) : Raises Exn (Shared σ α) (List α × Instream α) := do
  pure (← of (a.concat inps.reverse), is)

/-- The `loop` of `inputN`.  The number bounds its rounds. -/
def inputNLoop : ℕ → InBuf α → List (List α) → ℕ → Raises Exn (Shared σ α) (List α × Instream α)
  | 0, _, _, _ => raise .unfinished
  | k + 1, buf', inps, n => do
    match ← doit r "inputN" buf'.next with
    | .link buf =>
      if n ≤ buf.inp.length then finish a (buf.inp.take n :: inps) { pos := n, buf := buf }
      else inputNLoop k buf (buf.inp :: inps) (n - buf.inp.length)
    | .eos buf => finish a inps (if 0 < n then updateBufBeg buf else updateBufEnd buf')
    | _ => finish a inps (updateBufEnd buf')

/-- `inputN`. -/
def inputN (k : ℕ) (is : Instream α) (n : ℤ) : Raises Exn (Shared σ α) (List α × Instream α) :=
  if n < 0 ∨ a.maxLen < n then raise .size
  else do
    if (← of (a.add is.pos n.toNat)) ≤ is.buf.inp.length then
      pure ((is.buf.inp.drop is.pos).take n.toNat, { is with pos := is.pos + n.toNat })
    else inputNLoop a r k is.buf [is.buf.inp.drop is.pos] (n.toNat - (is.buf.inp.length - is.pos))

/-- `input1'`. -/
def input1' : ℕ → Instream α → Raises Exn (Shared σ α) (Option α × Instream α)
  | 0, _ => raise .unfinished
  | k + 1, is =>
    match is.buf.inp[is.pos]? with
    | some e => pure (some e, { is with pos := is.pos + 1 })
    | none => do
      match ← doit r "input1" is.buf.next with
      | .link buf => input1' k (updateBufBeg buf)
      | .eos buf => pure (none, updateBufBeg buf)
      | _ => pure (none, is)

/-- `input1`. -/
def input1 (k : ℕ) (is : Instream α) : Raises Exn (Shared σ α) (Option (α × Instream α)) := do
  match ← input1' r k is with
  | (some c, is') => pure (some (c, is'))
  | _ => pure none

/-- The `loop` of `inputAll`. -/
def inputAllLoop : ℕ → Instream α → List (List α) → Raises Exn (Shared σ α) (List α × Instream α)
  | 0, _, _ => raise .unfinished
  | k + 1, is, ac => do
    let (inp, is') ← input r is
    if inp.length = 0 then pure (← of (a.concat ac.reverse), is')
    else inputAllLoop k is' (inp :: ac)

/-- `inputAll`. -/
def inputAll (k : ℕ) (is : Instream α) : Raises Exn (Shared σ α) (List α × Instream α) :=
  inputAllLoop a r k is []

/-- `findLine`: the position behind the first end of a line. -/
def findLine (isLine : α → Bool) (v : List α) (i : ℕ) : Option ℕ :=
  ((v.drop i).findIdx? isLine).map (i + · + 1)

section Line

variable (isLine : α → Bool) (lineElem : α)

/-- The `finish` of `inputLine`. -/
def finishLine (inps : List (List α)) (is : Instream α) (trail : Bool) :
    Raises Exn (Shared σ α) (Option (List α × Instream α)) := do
  let inps := if trail = true then [lineElem] :: inps else inps
  pure (some (← of (a.concat inps.reverse), is))

/-- The `loop` of `inputLine`. -/
def inputLineLoop : ℕ → InBuf α → List (List α) → Raises Exn (Shared σ α) (Option (List α × Instream α))
  | 0, _, _ => raise .unfinished
  | k + 1, buf', inps => do
    match ← doit r "inputLine" buf'.next with
    | .link buf =>
      match findLine isLine buf.inp 0 with
      | some i => finishLine a lineElem (buf.inp.take i :: inps) { pos := i, buf := buf } false
      | none => inputLineLoop k buf (buf.inp :: inps)
    | _ => finishLine a lineElem inps (updateBufEnd buf') true

/-- The `first` of `inputLine`. -/
def inputLineFirst : ℕ → Instream α → Raises Exn (Shared σ α) (Option (List α × Instream α))
  | 0, _ => raise .unfinished
  | k + 1, is =>
    match findLine isLine is.buf.inp is.pos with
    | some i => pure (some ((is.buf.inp.drop is.pos).take (i - is.pos), { is with pos := i }))
    | none =>
      if is.pos < is.buf.inp.length then
        inputLineLoop a r isLine lineElem k is.buf [is.buf.inp.drop is.pos]
      else do
        match ← doit r "inputLine" is.buf.next with
        | .link buf => inputLineFirst k (updateBufBeg buf)
        | _ => pure none

end Line

/-- `inputLine`. -/
def inputLine (k : ℕ) (is : Instream α) : Raises Exn (Shared σ α) (Option (List α × Instream α)) :=
  match a.line with
  | none => do pure (some (← input r is))
  | some (isLine, lineElem) => inputLineFirst a r isLine lineElem k is

/-- The `start`, `add`, `loop` and `finish` of `canInput`, from a new vector on. -/
def canInputAdd (n : ℕ) : ℕ → List (List α) → List α → ℕ → Raises Exn (Shared σ α) (List α × ℕ)
  | 0, _, _, _ => raise .unfinished
  | fuel + 1, inps, inp, k => do
    let l ← of (a.add k inp.length)
    if n < l then pure (← of (a.concat (inp :: inps).reverse), n)
    else
      match ← extendNB r "canInput" with
      | none => pure (← of (a.concat (inp :: inps).reverse), l)
      | some (.link buf) => canInputAdd n fuel (inp :: inps) buf.inp l
      | some (.eos _) => pure (← of (a.concat (inp :: inps).reverse), l)
      | _ => raise (.fail "extendNB bug")

/-- `canInput`. -/
def canInput (k : ℕ) (is : Instream α) (n : ℤ) : Raises Exn (Shared σ α) (Option ℕ) :=
  if n < 0 ∨ a.maxLen < n then raise .size
  else if n = 0 then pure (some 0)
  else if is.pos < is.buf.inp.length then pure (some (min (is.buf.inp.length - is.pos) n.toNat))
  else do
    match ← deref is.buf.next with
    | .end_ =>
      match ← extendNB r "canInput" with
      | none => pure none
      | some (.link buf) => do
        let (inp, m) ← canInputAdd a r n.toNat k [] buf.inp 0
        let next ← refEnd
        assign is.buf.next (.link { inp := inp, next := next })
        pure (some m)
      | some (.eos _) => pure (some 0)
      | _ => raise (.fail "extendNB bug")
    | _ => pure (some 0)

/-- `endOfStream`. -/
def endOfStream (is : Instream α) : Raises Exn (Shared σ α) Bool := do
  pure ((← input r is).1.length = 0)

/-- `mkInstream'`: the first stream of a file, and what its streams share. -/
def mkInstream' (bufferContents : Option (Bool × List α)) (closed : Bool) (world : σ) :
    Instream α × Shared σ α :=
  let next := if closed then .closed else .end_
  let shared : Shared σ α :=
    { cells := fun r => if r = 0 then next else .end_, fresh := 1, tail := 0, world := world, delivered := [] }
  match bufferContents with
  | none => ({ pos := 0, buf := { inp := [], next := 0 } }, shared)
  | some (_, v) =>
    if v.length = 0 then
      ({ pos := 0, buf := { inp := [], next := 1 } },
        { shared with
          cells := Function.update shared.cells 1 (.eos { inp := [], next := 0 })
          fresh := 2
          delivered := [v] })
    else ({ pos := 0, buf := { inp := v, next := 0 } }, { shared with delivered := [v] })

/-! ## Operations -/

/-- The operations on an instream. -/
inductive InOp where
  | input
  | input1
  | inputN (n : ℤ)
  | inputLine
  | inputAll
  | canInput (n : ℤ)
  | endOfStream

/-- What an operation gives, without the stream it leaves. -/
inductive InRes (α : Type) where
  | vector (v : List α)
  | elem (c : Option α)
  | line (v : Option (List α))
  | count (n : Option ℕ)
  | bool (b : Bool)

/-- What an operation does, within a number of rounds: the result, and the stream it leaves, if any. -/
def InOp.run (k : ℕ) (is : Instream α) : InOp → Raises Exn (Shared σ α) (InRes α × Option (Instream α))
  | .input => do
    let (v, is') ← Streams.input r is
    pure (.vector v, some is')
  | .input1 => do
    match ← Streams.input1 r k is with
    | some (c, is') => pure (.elem (some c), some is')
    | none => pure (.elem none, none)
  | .inputN n => do
    let (v, is') ← Streams.inputN a r k is n
    pure (.vector v, some is')
  | .inputLine => do
    match ← Streams.inputLine a r k is with
    | some (v, is') => pure (.line (some v), some is')
    | none => pure (.line none, none)
  | .inputAll => do
    let (v, is') ← Streams.inputAll a r k is
    pure (.vector v, some is')
  | .canInput n => do
    pure (.count (← Streams.canInput a r k is n), none)
  | .endOfStream => do
    pure (.bool (← Streams.endOfStream r is), none)

end Input

end MLton.Streams
