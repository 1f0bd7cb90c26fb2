import Mblue.RingBuffer.Fifo

/-!
# The byte FIFO without a lock

A writer that puts and a reader that gets, at the same time and without a lock: "with only one
concurrent reader and one concurrent writer, you don't need extra locking to use these functions".

A step is what one of them does to the memory they share, in the order of its program: it reads the
other's counter, it copies one byte, it advances its own counter. `MIN` is a macro that evaluates its
second argument once more when it is the smaller one, so the other's counter is read twice: for the
comparison (`compared`) and then for the length. What a function has computed from the counters is
local to it (`Putting`, `Getting`). A copy that leaves the buffer of the FIFO or of the caller is not
possible.

`__kfifo_reset` is none of the steps: it writes both counters, and is neither the writer's nor the
reader's.

`put` and `got` are history: the bytes the writer has put in and the reader has taken out, by the
calls that are completed.
-/

namespace Mblue

/-- The writer in `__kfifo_put`, when it copies. -/
structure Putting where
  chunk : FifoChunk
  len : UInt32
  l : UInt32
  /-- The bytes copied so far. -/
  copied : ℕ
  deriving DecidableEq, Repr

/-- The reader in `__kfifo_get`, when it copies. -/
structure Getting where
  /-- The bytes that the caller's buffer takes. -/
  dest : UInt32
  len : UInt32
  l : UInt32
  /-- The bytes copied so far. -/
  copied : List UInt8
  deriving DecidableEq, Repr

/-- The writer in `__kfifo_put`. -/
inductive Writer
  /-- `MIN` has compared the caller's `len` with the room: it is `less`, or the room is read again. -/
  | compared (chunk : FifoChunk) (less : Bool)
  | copying (w : Putting)
  deriving DecidableEq, Repr

/-- The reader in `__kfifo_get`. -/
inductive Reader
  /-- `MIN` has compared the caller's `len` with what is stored. -/
  | compared (dest : UInt32) (less : Bool)
  | copying (r : Getting)
  deriving DecidableEq, Repr

/-- A FIFO, its writer and its reader. -/
structure SharedFifo where
  fifo : MblueFifo
  writer : Option Writer
  reader : Option Reader
  /-- History: the bytes that were put in. -/
  put : List UInt8
  /-- History: the bytes that were taken out. -/
  got : List UInt8
  deriving DecidableEq, Repr

/-- The steps of the writer and the reader. -/
inductive FifoStep
  | putBegin (chunk : FifoChunk)
  | putLen
  | putByte
  | putEnd
  | getBegin (len : UInt32)
  | getLen
  | getByte
  | getEnd
  deriving DecidableEq, Repr

/-- Where byte number `k` of a copy lies that goes on at the first cell after `l` bytes. -/
def copyPosition (offset l : UInt32) (k : ℕ) : ℕ :=
  if k < l.toNat then offset.toNat + k else k - l.toNat

namespace SharedFifo

/-- `__kfifo_put` begins: the comparison of `MIN`. -/
def putBegin (s : SharedFifo) (chunk : FifoChunk) : Option SharedFifo :=
  match s.writer with
  | some _ => none
  | none =>
    let fifo := s.fifo
    let less := decide (chunk.len < fifo.size - fifo.inIndex + fifo.outIndex)
    some { s with writer := some (.compared chunk less) }

/-- The value of `MIN`, and `l`. -/
def putLen (s : SharedFifo) : Option SharedFifo :=
  match s.writer with
  | some (.compared chunk less) =>
    let fifo := s.fifo
    let len := if less then chunk.len else fifo.size - fifo.inIndex + fifo.outIndex
    let l := min32 len (fifo.size - (fifo.inIndex &&& (fifo.size - 1)))
    some { s with writer := some (.copying ⟨chunk, len, l, 0⟩) }
  | _ => none

/-- One byte of its two `memcpy`s. -/
def putByte (s : SharedFifo) : Option SharedFifo :=
  match s.writer with
  | some (.copying w) => do
    let b ← (w.chunk.bytes.take w.len.toNat)[w.copied]?
    let pos := copyPosition (s.fifo.inIndex &&& (s.fifo.size - 1)) w.l w.copied
    if pos < s.fifo.buffer.length then
      some { s with
        fifo := { s.fifo with buffer := s.fifo.buffer.set pos b }
        writer := some (.copying { w with copied := w.copied + 1 }) }
    else none
  | _ => none

/-- `fifo->in += len`. -/
def putEnd (s : SharedFifo) : Option SharedFifo :=
  match s.writer with
  | some (.copying w) =>
    if w.copied = w.len.toNat then
      some { s with
        fifo := { s.fifo with inIndex := s.fifo.inIndex + w.len }
        writer := none
        put := s.put ++ w.chunk.bytes.take w.len.toNat }
    else none
  | _ => none

/-- `__kfifo_get` begins: the comparison of `MIN`. -/
def getBegin (s : SharedFifo) (len : UInt32) : Option SharedFifo :=
  match s.reader with
  | some _ => none
  | none =>
    let fifo := s.fifo
    let less := decide (len < fifo.inIndex - fifo.outIndex)
    some { s with reader := some (.compared len less) }

/-- The value of `MIN`, and `l`. -/
def getLen (s : SharedFifo) : Option SharedFifo :=
  match s.reader with
  | some (.compared dest less) =>
    let fifo := s.fifo
    let len := if less then dest else fifo.inIndex - fifo.outIndex
    let l := min32 len (fifo.size - (fifo.outIndex &&& (fifo.size - 1)))
    some { s with reader := some (.copying ⟨dest, len, l, []⟩) }
  | _ => none

/-- One byte of its two `memcpy`s. -/
def getByte (s : SharedFifo) : Option SharedFifo :=
  match s.reader with
  | some (.copying r) =>
    if r.copied.length < r.len.toNat ∧ r.copied.length < r.dest.toNat then do
      let pos := copyPosition (s.fifo.outIndex &&& (s.fifo.size - 1)) r.l r.copied.length
      let b ← s.fifo.buffer[pos]?
      some { s with reader := some (.copying { r with copied := r.copied ++ [b] }) }
    else none
  | _ => none

/-- `fifo->out += len`. -/
def getEnd (s : SharedFifo) : Option SharedFifo :=
  match s.reader with
  | some (.copying r) =>
    if r.copied.length = r.len.toNat then
      some { s with
        fifo := { s.fifo with outIndex := s.fifo.outIndex + r.len }
        reader := none
        got := s.got ++ r.copied }
    else none
  | _ => none

/-- One step. -/
def step (s : SharedFifo) : FifoStep → Option SharedFifo
  | .putBegin chunk => s.putBegin chunk
  | .putLen => s.putLen
  | .putByte => s.putByte
  | .putEnd => s.putEnd
  | .getBegin len => s.getBegin len
  | .getLen => s.getLen
  | .getByte => s.getByte
  | .getEnd => s.getEnd

/-- After `__kfifo_init` on a buffer. -/
def initial (buffer : List UInt8) (size : UInt32) : SharedFifo :=
  ⟨.kfifoInit buffer size, none, none, [], []⟩

end SharedFifo

end Mblue
