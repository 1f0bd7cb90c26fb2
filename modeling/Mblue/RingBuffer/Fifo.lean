import Mblue.Common.Block

/-!
# The byte FIFO

`mblue_fifo.c`, in the release build: `_ASSERT` is empty there, so the size of a FIFO is what the
caller asks for. `in` and `out` count the bytes that were put and got, modulo `2 ^ 32`; their low bits
are positions in the buffer. A copy that leaves the buffer is `none`.
-/

namespace Mblue

/-- Bytes that are passed with their number, an `unsigned int`. -/
structure FifoChunk where
  bytes : List UInt8
  length_lt : bytes.length < 2 ^ 32
  deriving DecidableEq, Repr

/-- `struct mblue_fifo` and the bytes its member `buffer` points at. -/
structure MblueFifo where
  buffer : List UInt8
  size : UInt32
  inIndex : UInt32
  outIndex : UInt32
  deriving DecidableEq, Repr

/-- The calls of a FIFO. -/
inductive FifoCall
  | put (chunk : FifoChunk)
  | get (len : UInt32)
  | len
  | reset
  deriving DecidableEq, Repr

/-- What a call returns, with the bytes it copies to its caller. -/
inductive FifoResult
  | accepted (n : ℕ)
  | taken (n : ℕ) (bytes : List UInt8)
  | length (n : ℕ)
  | done
  deriving DecidableEq, Repr

/-- The number of bytes, as it is passed. -/
def FifoChunk.len (chunk : FifoChunk) : UInt32 :=
  UInt32.ofNat chunk.bytes.length

/-- `MIN`. -/
def min32 (a b : UInt32) : UInt32 :=
  if a < b then a else b

namespace MblueFifo

/-- `__kfifo_init`. -/
def kfifoInit (buffer : List UInt8) (size : UInt32) : MblueFifo :=
  ⟨buffer, size, 0, 0⟩

/-- `mblue_fifo_alloc`, given whether there is memory for the buffer and for the struct. The buffer is
zeroed by `mblue_malloc`. -/
def mblueFifoAlloc (bufferFound fifoFound : Bool) (size : UInt32) : Option MblueFifo :=
  if bufferFound && fifoFound then some (kfifoInit (List.replicate size.toNat 0) size) else none

/-- `__kfifo_reset`. -/
def kfifoReset (fifo : MblueFifo) : MblueFifo :=
  { fifo with inIndex := 0, outIndex := 0 }

/-- `__kfifo_len`. -/
def kfifoLen (fifo : MblueFifo) : UInt32 :=
  fifo.inIndex - fifo.outIndex

/-- `__kfifo_put`. -/
def kfifoPut (fifo : MblueFifo) (chunk : FifoChunk) : Option (UInt32 × MblueFifo) := do
  let len := min32 chunk.len (fifo.size - fifo.inIndex + fifo.outIndex)
  let offset := fifo.inIndex &&& (fifo.size - 1)
  let l := min32 len (fifo.size - offset)
  let buffer ← copyIn fifo.buffer offset.toNat (chunk.bytes.take l.toNat)
  let buffer ← copyIn buffer 0 ((chunk.bytes.drop l.toNat).take (len - l).toNat)
  pure (len, { fifo with buffer, inIndex := fifo.inIndex + len })

/-- `__kfifo_get`; the bytes are those copied to the caller. -/
def kfifoGet (fifo : MblueFifo) (len : UInt32) : Option (UInt32 × List UInt8 × MblueFifo) := do
  let len := min32 len (fifo.inIndex - fifo.outIndex)
  let offset := fifo.outIndex &&& (fifo.size - 1)
  let l := min32 len (fifo.size - offset)
  let first ← copyOut fifo.buffer offset.toNat l.toNat
  let rest ← copyOut fifo.buffer 0 (len - l).toNat
  pure (len, first ++ rest, { fifo with outIndex := fifo.outIndex + len })

/-- One call. -/
def call (fifo : MblueFifo) : FifoCall → Option (FifoResult × MblueFifo)
  | .put chunk => do
    let (n, fifo) ← fifo.kfifoPut chunk
    pure (.accepted n.toNat, fifo)
  | .get len => do
    let (n, bytes, fifo) ← fifo.kfifoGet len
    pure (.taken n.toNat bytes, fifo)
  | .len => some (.length fifo.kfifoLen.toNat, fifo)
  | .reset => some (.done, fifo.kfifoReset)

/-- A sequence of calls. -/
def run (fifo : MblueFifo) : List FifoCall → Option (List FifoResult × MblueFifo)
  | [] => some ([], fifo)
  | c :: calls => do
    let (result, fifo) ← fifo.call c
    let (results, fifo) ← fifo.run calls
    pure (result :: results, fifo)

end MblueFifo

end Mblue
