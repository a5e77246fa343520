import MLton.Streams.PrimIo

/-!
# Streams/Outstream — the output half of `StreamIOExtra`

An outstream has a state and a buffer, which its mode owns.  The array of the buffer is as long as the
writer's chunk size, and the size counts the elements that are in use: a terminated stream has all of them
in use, so that there is no room for another.
-/

namespace MLton.Streams

open Raises

/-- A buffer. -/
structure Buf (α : Type) where
  array : List α
  size : ℕ

/-- `IO.buffer_mode`. -/
inductive BufferKind where
  | noBuf
  | lineBuf
  | blockBuf
deriving DecidableEq, Repr

/-- `bufferMode`. -/
inductive BufferMode (α : Type) where
  | noBuf
  | lineBuf (buf : Buf α)
  | blockBuf (buf : Buf α)

namespace BufferMode

variable {α : Type}

/-- What `getBufferMode` says of a mode. -/
def kind : BufferMode α → BufferKind
  | noBuf => .noBuf
  | lineBuf _ => .lineBuf
  | blockBuf _ => .blockBuf

/-- The buffer. -/
def buf? : BufferMode α → Option (Buf α)
  | noBuf => none
  | lineBuf buf | blockBuf buf => some buf

/-- The mode with another state of its buffer. -/
def setBuf (buf : Buf α) : BufferMode α → BufferMode α
  | noBuf => noBuf
  | lineBuf _ => lineBuf buf
  | blockBuf _ => blockBuf buf

end BufferMode

/-- `state`. -/
inductive OutState where
  | active
  | terminated
  | closed
deriving DecidableEq, Repr

/-- What an outstream refers to, and the world outside.  `handed` is no part of the source: it is what the
writer has taken so far. -/
structure Outstream (σ α : Type) where
  state : OutState
  bufferMode : BufferMode α
  world : σ
  handed : List α

section Output

variable {σ α : Type} (a : Arg α) (w : Writer σ α)

/-- What is done outside. -/
def outside {β : Type} (x : Raises Exn σ β) : Raises Exn (Outstream σ α) β :=
  zoom Outstream.world (fun s os => { os with world := s }) x

/-- Change the buffer. -/
def setBuf (buf : Buf α) : Raises Exn (Outstream σ α) Unit :=
  modify fun os => { os with bufferMode := os.bufferMode.setBuf buf }

/-- The `loop` of `flushGen`, over what is left.  The number bounds the writes: each takes an element. -/
def flushLoop (write : List α → Raises Exn σ ℕ) : ℕ → List α → Raises Exn (Outstream σ α) Unit
  | _, [] => pure ()
  | 0, _ :: _ => raise .unfinished
  | k + 1, x :: xs => do
    let j ← outside (write (x :: xs))
    if j = 0 then raise (.fail "partial write")
    else do
      modify fun os => { os with handed := os.handed ++ (x :: xs).take j }
      if j ≤ (x :: xs).length then flushLoop write k ((x :: xs).drop j) else raise .subscript

/-- `flushGen`. -/
def flushGen (write : Option (List α → Raises Exn σ ℕ)) (xs : List α) :
    Raises Exn (Outstream σ α) Unit :=
  match write with
  | none => raise .blockingNotSupported
  | some write => flushLoop write xs.length xs

/-- `flushVec`, to the augmented writer. -/
def flushVec (xs : List α) : Raises Exn (Outstream σ α) Unit := flushGen w.augmentWriter.writeVec xs

/-- `flushArr`, to the augmented writer. -/
def flushArr (xs : List α) : Raises Exn (Outstream σ α) Unit := flushGen w.augmentWriter.writeArr xs

/-- `flushBuf`. -/
def flushBuf (buf : Buf α) : Raises Exn (Outstream σ α) Unit := do
  setBuf { buf with size := 0 }
  flushArr w (← of (slice buf.array buf.size))

/-- The `doit` of `output`. -/
def buffered (v : List α) (buf : Buf α) (maybe : Bool) : Raises Exn (Outstream σ α) Unit := do
  let newSize ← of (a.add buf.size v.length)
  if buf.array.length ≤ newSize ∨ maybe = true then do
    flushBuf w buf
    flushVec w v
  else do
    setBuf { array := ← of (copyVec v buf.array buf.size), size := newSize }

/-- `output`. -/
def output (v : List α) : Raises Exn (Outstream σ α) Unit := do
  let os ← get
  if os.state ≠ .active then liftExn w.name "output" .closedStream
  else
    Raises.handle
      (match os.bufferMode with
        | .noBuf => flushVec w v
        | .lineBuf buf => buffered a w v buf (match a.line with
            | none => false
            | some (isLine, _) => v.any isLine)
        | .blockBuf buf => buffered a w v buf false)
      (liftExn w.name "output")

/-- `outputSlice`, of the elements of a slice. -/
def outputSlice (v : List α) : Raises Exn (Outstream σ α) Unit := output a w v

/-- `ensureActive`. -/
def ensureActive : Raises Exn (Outstream σ α) Unit := do
  if (← get).state = .active then pure () else liftExn w.name "output" .closedStream

/-- The `flush` of `output1`. -/
def flush (buf : Buf α) : Raises Exn (Outstream σ α) Unit :=
  Raises.handle (flushBuf w buf) (liftExn w.name "output1")

/-- What `output1` does with a buffer: the bounds check of the update makes sure that there is space. -/
def update1 (c : α) (buf : Buf α) : Raises Exn (Outstream σ α) Unit :=
  Raises.handle
    (do setBuf { array := ← of (update buf.array buf.size c), size := 1 + buf.size })
    fun
      | .subscript => do
        ensureActive w
        flush w buf
        setBuf { array := ← of (update buf.array 0 c), size := 1 }
      | exn => raise exn

/-- `output1`. -/
def output1 (c : α) : Raises Exn (Outstream σ α) Unit := do
  match (← get).bufferMode with
  | .blockBuf buf => update1 w c buf
  | .lineBuf buf => do
    update1 w c buf
    match a.line with
    | none => pure ()
    | some (isLine, _) =>
      if isLine c = true then
        match (← get).bufferMode.buf? with
        | some buf => flush w buf
        | none => pure ()
      else pure ()
  | .noBuf => do
    ensureActive w
    flushArr w [c]

/-- `flushOut`; the handler is that of the last case only. -/
def flushOut : Raises Exn (Outstream σ α) Unit := do
  let os ← get
  if os.state ≠ .active then pure ()
  else
    match os.bufferMode with
    | .noBuf => pure ()
    | .lineBuf buf => flushBuf w buf
    | .blockBuf buf => Raises.handle (flushBuf w buf) (liftExn w.name "flushOut")

/-- `makeTerminated`. -/
def makeTerminated : Raises Exn (Outstream σ α) Unit := do
  match (← get).bufferMode.buf? with
  | some buf => setBuf { buf with size := buf.array.length }
  | none => pure ()

/-- `closeOut`. -/
def closeOut : Raises Exn (Outstream σ α) Unit := do
  if (← get).state = .closed then pure ()
  else
    Raises.handle
      (do
        flushOut w
        if (← get).state ≠ .active then pure () else outside w.close
        modify fun os => { os with state := .closed }
        makeTerminated)
      (liftExn w.name "closeOut")

/-- A mode with a new buffer. -/
def newBuf (kind : BufferKind) : Except Exn (BufferMode α) :=
  match kind with
  | .noBuf => .ok .noBuf
  | .lineBuf => (a.array w.chunkSize).map fun array => .lineBuf { array := array, size := 0 }
  | .blockBuf => (a.array w.chunkSize).map fun array => .blockBuf { array := array, size := 0 }

/-- `setBufferMode`. -/
def setBufferMode (mode : BufferKind) : Raises Exn (Outstream σ α) Unit :=
  match mode with
  | .noBuf => do
    flushOut w
    modify fun os => { os with bufferMode := .noBuf }
  | mode => do
    if (← get).bufferMode.kind = mode then pure ()
    else do
      let bufferMode ← of (newBuf a w mode)
      modify fun os => { os with bufferMode := bufferMode }

/-- `mkOutstream'`. -/
def mkOutstream' (closed : Bool) (mode : BufferKind) (world : σ) : Except Exn (Outstream σ α) :=
  (newBuf a w mode).map fun bufferMode =>
    { state := if closed then .closed else .active, bufferMode := bufferMode, world := world, handed := [] }

/-- `getWriter`, without the writer itself. -/
def getWriter : Raises Exn (Outstream σ α) BufferKind := do
  if (← get).state = .closed then liftExn w.name "getWriter" .closedStream
  else do
    flushOut w
    modify fun os => { os with state := .terminated }
    makeTerminated
    pure (← get).bufferMode.kind

/-! ## Sessions -/

/-- The operations on an outstream. -/
inductive OutOp (α : Type) where
  | output (v : List α)
  | output1 (c : α)
  | outputSlice (v : List α)
  | flushOut
  | setBufferMode (mode : BufferKind)
  | closeOut
  | getWriter

namespace OutOp

/-- What an operation outputs. -/
def elements : OutOp α → List α
  | output v | outputSlice v => v
  | output1 c => [c]
  | _ => []

/-- It is an output operation. -/
def Outputs : OutOp α → Prop
  | output _ | outputSlice _ | output1 _ => True
  | _ => False

/-- After it there is nothing to be output. -/
def ends : OutOp α → Bool
  | closeOut | getWriter => true
  | _ => false

/-- What an operation does. -/
def run : OutOp α → Raises Exn (Outstream σ α) Unit
  | output v => Streams.output a w v
  | output1 c => Streams.output1 a w c
  | outputSlice v => Streams.outputSlice a w v
  | flushOut => Streams.flushOut w
  | setBufferMode mode => Streams.setBufferMode a w mode
  | closeOut => Streams.closeOut w
  | getWriter => do
    let _ ← Streams.getWriter w
    pure ()

end OutOp

/-- An outstream in use: what has been output so far, and whether it has been ended. -/
structure Session (σ α : Type) where
  os : Outstream σ α
  output : List α
  ended : Bool

namespace Session

/-- One operation.  One that raises has output nothing and ended nothing. -/
def step (s : Session σ α) (op : OutOp α) : Session σ α :=
  match op.run a w s.os with
  | (.ok _, os) => { os := os, output := s.output ++ op.elements, ended := s.ended || op.ends }
  | (.error _, os) => { s with os := os }

/-- Operations one after the other. -/
def run (s : Session σ α) (ops : List (OutOp α)) : Session σ α := ops.foldl (step a w) s

end Session

/-- A new outstream, open or closed. -/
def start (closed : Bool) (os : Outstream σ α) : Session σ α := { os := os, output := [], ended := closed }

end Output

end MLton.Streams
