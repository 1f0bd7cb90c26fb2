import Mathlib
import Mblue.Library.CyclicBuffer
import Mblue.RingBuffer.Fifo

/-!
# The FIFO is a byte queue

A byte queue is the list of what is stored in it. `Represents` ties a FIFO to such a list, and each
call keeps it, also when the counters wrap around: their low bits are a position modulo the size
when the size is a power of two or zero, and only then.
-/

namespace Mblue

open CyclicBuffer

/-! ### The byte queue -/

namespace ByteQueue

/-- A call of a byte queue with room for `capacity` bytes. -/
def call (capacity : ℕ) (stored : List UInt8) : FifoCall → FifoResult × List UInt8
  | .put chunk =>
    let n := min chunk.bytes.length (capacity - stored.length)
    (.accepted n, stored ++ chunk.bytes.take n)
  | .get len =>
    let n := min len.toNat stored.length
    (.taken n (stored.take n), stored.drop n)
  | .len => (.length stored.length, stored)
  | .reset => (.done, [])

/-- A sequence of calls. -/
def run (capacity : ℕ) (stored : List UInt8) : List FifoCall → List FifoResult × List UInt8
  | [] => ([], stored)
  | c :: calls =>
    ((call capacity stored c).1 :: (run capacity (call capacity stored c).2 calls).1,
      (run capacity (call capacity stored c).2 calls).2)

end ByteQueue

/-- **The FIFO serves as a byte queue**: in every sequence of calls no copy leaves the buffer, every
call returns what that of the queue returns, and the length is that of what is stored. -/
def MblueFifo.ServesAsByteQueue (fifo : MblueFifo) (size : UInt32) : Prop :=
  ∀ calls, ∃ fifo',
    fifo.run calls = some ((ByteQueue.run size.toNat [] calls).1, fifo') ∧
      fifo'.kfifoLen.toNat = (ByteQueue.run size.toNat [] calls).2.length ∧
      fifo'.kfifoLen.toNat ≤ size.toNat

/-! ### Masks and counters -/

@[simp] theorem toNat_min32 (a b : UInt32) : (min32 a b).toNat = min a.toNat b.toNat := by
  unfold min32
  split_ifs with h
  · exact (Nat.min_eq_left (UInt32.le_iff_toNat_le.1 (UInt32.le_of_lt h))).symm
  · exact (Nat.min_eq_right (UInt32.le_iff_toNat_le.1 (UInt32.not_lt.1 h))).symm

theorem FifoChunk.toNat_len (chunk : FifoChunk) : chunk.len.toNat = chunk.bytes.length := by
  rw [len, UInt32.toNat_ofNat']
  exact Nat.mod_eq_of_lt chunk.length_lt

/-- The sizes that masks work for. -/
def MaskSize (size : UInt32) : Prop :=
  size = 0 ∨ ∃ k, size.toNat = 2 ^ k

/-- **The mask takes a counter to its position.** -/
theorem MaskSize.toNat_and {size : UInt32} (h : MaskSize size) (x : UInt32) :
    (x &&& (size - 1)).toNat = x.toNat % size.toNat := by
  obtain rfl | ⟨k, hk⟩ := h
  · have hall : (0 - 1 : UInt32).toNat = 2 ^ 32 - 1 := rfl
    rw [UInt32.toNat_and, hall, Nat.and_two_pow_sub_one_eq_mod, Nat.mod_eq_of_lt x.toNat_lt]
    exact (Nat.mod_zero _).symm
  · have hone : (1 : UInt32) ≤ size := by
      rw [UInt32.le_iff_toNat_le, hk]
      exact Nat.one_le_two_pow
    have hmask : (size - 1).toNat = 2 ^ k - 1 := by
      rw [UInt32.toNat_sub_of_le _ _ hone, hk]
      rfl
    rw [UInt32.toNat_and, hmask, Nat.and_two_pow_sub_one_eq_mod, hk]

/-- The size divides the range of the counters. -/
theorem MaskSize.dvd {size : UInt32} (h : MaskSize size) (hsize : size ≠ 0) :
    size.toNat ∣ 2 ^ 32 := by
  obtain rfl | ⟨k, hk⟩ := h
  · exact absurd rfl hsize
  · rw [hk]
    refine Nat.pow_dvd_pow 2 ?_
    have hlt : 2 ^ k < 2 ^ 32 := hk ▸ size.toNat_lt
    exact ((Nat.pow_lt_pow_iff_right one_lt_two).1 hlt).le

/-! ### A FIFO and what is stored in it -/

theorem run_cons {fifo fifo₁ fifo₂ : MblueFifo} {c : FifoCall} {calls : List FifoCall}
    {result : FifoResult} {results : List FifoResult} (hcall : fifo.call c = some (result, fifo₁))
    (hrun : fifo₁.run calls = some (results, fifo₂)) :
    fifo.run (c :: calls) = some (result :: results, fifo₂) := by
  simp [MblueFifo.run, hcall, hrun]

theorem call_put {fifo fifo' : MblueFifo} {chunk : FifoChunk} {n : UInt32}
    (h : fifo.kfifoPut chunk = some (n, fifo')) :
    fifo.call (.put chunk) = some (.accepted n.toNat, fifo') := by
  simp [MblueFifo.call, h]

theorem call_get {fifo fifo' : MblueFifo} {len n : UInt32} {bytes : List UInt8}
    (h : fifo.kfifoGet len = some (n, bytes, fifo')) :
    fifo.call (.get len) = some (.taken n.toNat bytes, fifo') := by
  simp [MblueFifo.call, h]

/-- A FIFO stands for the list of what is stored in it. -/
structure Represents (fifo : MblueFifo) (stored : List UInt8) : Prop where
  size : MaskSize fifo.size
  length : fifo.buffer.length = fifo.size.toNat
  span : fifo.inIndex = fifo.outIndex + UInt32.ofNat stored.length
  holds : Holds fifo.buffer fifo.outIndex.toNat stored
  idle : fifo.size = 0 → fifo.outIndex = 0

namespace Represents

variable {fifo : MblueFifo} {stored : List UInt8}

theorem length_le (h : Represents fifo stored) : stored.length ≤ fifo.size.toNat :=
  h.length ▸ h.holds.fits

theorem toNat_ofNat_length (h : Represents fifo stored) :
    (UInt32.ofNat stored.length).toNat = stored.length := by
  rw [UInt32.toNat_ofNat']
  exact Nat.mod_eq_of_lt (h.length_le.trans_lt fifo.size.toNat_lt)

/-- `in - out` is the number of bytes that are stored, whatever the counters are. -/
theorem toNat_len (h : Represents fifo stored) :
    (fifo.inIndex - fifo.outIndex).toNat = stored.length := by
  rw [h.span, UInt32.add_comm, UInt32.add_sub_cancel, h.toNat_ofNat_length]

/-- The free space, as `__kfifo_put` computes it. -/
theorem toNat_free (h : Represents fifo stored) :
    (fifo.size - fifo.inIndex + fifo.outIndex).toNat = fifo.size.toNat - stored.length := by
  have hlength := h.toNat_ofNat_length
  have hle : UInt32.ofNat stored.length ≤ fifo.size := by
    rw [UInt32.le_iff_toNat_le, hlength]
    exact h.length_le
  have hfree : fifo.size - fifo.inIndex + fifo.outIndex =
      fifo.size - UInt32.ofNat stored.length := by
    rw [h.span]
    grind
  rw [hfree, UInt32.toNat_sub_of_le _ _ hle, hlength]

/-- The position of a counter that has moved on. -/
theorem add_mod_size (h : Represents fifo stored) {n : ℕ} (hn : n ≤ fifo.size.toNat)
    (x : UInt32) :
    (x + UInt32.ofNat n).toNat % fifo.size.toNat = (x.toNat + n) % fifo.size.toNat := by
  have hlt : n < 2 ^ 32 := hn.trans_lt fifo.size.toNat_lt
  rw [UInt32.toNat_add, UInt32.toNat_ofNat', Nat.mod_eq_of_lt hlt]
  by_cases hsize : fifo.size = 0
  · have hzero : fifo.size.toNat = 0 := congrArg UInt32.toNat hsize
    obtain rfl : n = 0 := by omega
    rw [Nat.add_zero, Nat.mod_eq_of_lt x.toNat_lt]
  · exact Nat.mod_mod_of_dvd _ (h.size.dvd hsize)

end Represents

theorem copyIn_eq {buffer src : List UInt8} {offset : ℕ}
    (h : offset + src.length ≤ buffer.length) :
    copyIn buffer offset src = some (overwrite buffer offset src) :=
  if_pos h

theorem copyOut_eq {buffer : List UInt8} {offset n : ℕ} (h : offset + n ≤ buffer.length) :
    copyOut buffer offset n = some ((buffer.drop offset).take n) :=
  if_pos h

/-- The two copies of `__kfifo_put`. -/
theorem copyIn_round {buffer : List UInt8} (src : List UInt8) {offset : ℕ} (hoffset : offset ≤ buffer.length)
    (hsrc : src.length ≤ buffer.length) :
    ((copyIn buffer offset (src.take (buffer.length - offset))).bind fun buffer' ↦
      copyIn buffer' 0 (src.drop (buffer.length - offset))) = some (writeRound buffer offset src) := by
  have hfirst : offset + (src.take (buffer.length - offset)).length ≤ buffer.length := by
    rw [List.length_take]
    omega
  rw [copyIn_eq hfirst, Option.bind_some, copyIn_eq]
  · rfl
  · rw [length_overwrite hfirst, List.length_drop]
    omega

/-- The two copies of `__kfifo_get`. -/
theorem copyOut_round {buffer : List UInt8} {offset n : ℕ} (hoffset : offset ≤ buffer.length)
    (hn : n ≤ buffer.length) :
    ((copyOut buffer offset (min n (buffer.length - offset))).bind fun first ↦
      (copyOut buffer 0 (n - (buffer.length - offset))).map (first ++ ·)) =
        some (readRound buffer offset n) := by
  have htake : (buffer.drop offset).take (min n (buffer.length - offset)) =
      (buffer.drop offset).take n := by
    rw [← List.length_drop, List.take_eq_take_min (i := n)]
  rw [copyOut_eq (by omega), Option.bind_some, copyOut_eq (by omega), Option.map_some, htake]
  rfl

namespace Represents

variable {fifo : MblueFifo} {stored : List UInt8}

/-- The room from a position up to the end of the buffer. -/
theorem toNat_size_sub (h : Represents fifo stored) (x : UInt32)
    (hx : (x &&& (fifo.size - 1)).toNat ≤ fifo.size.toNat) :
    (fifo.size - (x &&& (fifo.size - 1))).toNat =
      fifo.buffer.length - x.toNat % fifo.size.toNat := by
  rw [UInt32.toNat_sub_of_le _ _ (UInt32.le_iff_toNat_le.2 hx), h.size.toNat_and, h.length]

/-- A position lies in the buffer, at its end only when the buffer has no bytes. -/
theorem mod_le (h : Represents fifo stored) {x : UInt32} (hx : fifo.size = 0 → x = 0) :
    (x &&& (fifo.size - 1)).toNat ≤ fifo.size.toNat := by
  rw [h.size.toNat_and]
  by_cases hsize : fifo.size = 0
  · rw [hx hsize]
    exact (Nat.zero_mod _).trans_le (Nat.zero_le _)
  · have hpos : 0 < fifo.size.toNat :=
      Nat.pos_of_ne_zero fun hzero ↦ hsize (UInt32.toNat_inj.1 hzero)
    exact (Nat.mod_lt _ hpos).le

/-- A FIFO without room has never moved. -/
theorem inIndex_idle (h : Represents fifo stored) (hsize : fifo.size = 0) : fifo.inIndex = 0 := by
  have hzero : fifo.size.toNat = 0 := congrArg UInt32.toNat hsize
  have hstored : stored.length = 0 := Nat.le_zero.1 (hzero ▸ h.length_le)
  rw [h.span, h.idle hsize, hstored]
  rfl

/-- **`put` appends** what there is room for. -/
theorem put (h : Represents fifo stored) (chunk : FifoChunk) :
    ∃ n fifo', fifo.kfifoPut chunk = some (n, fifo') ∧
      n.toNat = min chunk.bytes.length (fifo.size.toNat - stored.length) ∧
      fifo'.size = fifo.size ∧ Represents fifo' (stored ++ chunk.bytes.take n.toNat) := by
  generalize hn : min32 chunk.len (fifo.size - fifo.inIndex + fifo.outIndex) = n
  have hcount : n.toNat = min chunk.bytes.length (fifo.size.toNat - stored.length) := by
    rw [← hn, toNat_min32, chunk.toNat_len, h.toNat_free]
  have hlength := h.length
  have hstored := h.length_le
  have hoffset := h.mod_le h.inIndex_idle
  have hroom := h.toNat_size_sub fifo.inIndex hoffset
  rw [h.size.toNat_and] at hoffset
  set offset := fifo.inIndex.toNat % fifo.size.toNat with hdef
  set src := chunk.bytes.take n.toNat with hsrc
  have hsrclen : src.length = n.toNat := by
    rw [hsrc, List.length_take]
    omega
  have hl : (min32 n (fifo.size - (fifo.inIndex &&& (fifo.size - 1)))).toNat =
      min n.toNat (fifo.buffer.length - offset) := by
    rw [toNat_min32, hroom]
  have hfirst : chunk.bytes.take (min n.toNat (fifo.buffer.length - offset)) =
      src.take (fifo.buffer.length - offset) := by
    rw [hsrc, List.take_take, Nat.min_comm]
  have hrest : (chunk.bytes.drop (min n.toNat (fifo.buffer.length - offset))).take
      (n.toNat - min n.toNat (fifo.buffer.length - offset)) =
        src.drop (fifo.buffer.length - offset) := by
    obtain hle | hlt := le_or_gt n.toNat (fifo.buffer.length - offset)
    · rw [Nat.min_eq_left hle, Nat.sub_self, List.take_zero, List.drop_eq_nil_of_le]
      exact hsrclen.trans_le hle
    · rw [Nat.min_eq_right hlt.le, hsrc, List.drop_take]
  have hcopies := copyIn_round src (hlength ▸ hoffset) (by omega)
  have hput : fifo.kfifoPut chunk = some (n, { fifo with
      buffer := writeRound fifo.buffer offset src, inIndex := fifo.inIndex + n }) := by
    obtain ⟨buffer', hcopy, hcopy'⟩ := Option.bind_eq_some_iff.1 hcopies
    have hsub : (n - min32 n (fifo.size - (fifo.inIndex &&& (fifo.size - 1)))).toNat =
        n.toNat - min n.toNat (fifo.buffer.length - offset) := by
      rw [UInt32.toNat_sub_of_le _ _ (UInt32.le_iff_toNat_le.2 (by omega)), hl]
    simp only [MblueFifo.kfifoPut, hn, hl, hsub, hfirst, hrest, h.size.toNat_and, ← hdef, hcopy,
      hcopy', Option.bind_eq_bind, Option.bind_some, Option.pure_def]
  -- the counter of the writer is behind the bytes in store
  have hposition : (fifo.outIndex.toNat + stored.length) % fifo.buffer.length = offset := by
    rw [hlength, ← h.add_mod_size hstored, ← h.span]
  have hwritten : Holds (writeRound fifo.buffer offset src) fifo.outIndex.toNat (stored ++ src) :=
    hposition ▸ h.holds.write (by omega)
  refine ⟨n, _, hput, hcount, rfl, h.size, ?_, ?_, hwritten, h.idle⟩
  · exact (length_writeRound (hlength ▸ hoffset) (by omega)).trans hlength
  · rw [h.span, List.length_append, hsrclen, UInt32.ofNat_add, UInt32.ofNat_toNat,
      UInt32.add_assoc]

/-- **`get` takes** the bytes that were stored first. -/
theorem get (h : Represents fifo stored) (len : UInt32) :
    ∃ n fifo', fifo.kfifoGet len = some (n, stored.take n.toNat, fifo') ∧
      n.toNat = min len.toNat stored.length ∧
      fifo'.size = fifo.size ∧ Represents fifo' (stored.drop n.toNat) := by
  generalize hn : min32 len (fifo.inIndex - fifo.outIndex) = n
  have hcount : n.toNat = min len.toNat stored.length := by
    rw [← hn, toNat_min32, h.toNat_len]
  have hlength := h.length
  have hstored := h.length_le
  have hoffset := h.mod_le h.idle
  have hroom := h.toNat_size_sub fifo.outIndex hoffset
  rw [h.size.toNat_and] at hoffset
  set offset := fifo.outIndex.toNat % fifo.size.toNat with hdef
  have hl : (min32 n (fifo.size - (fifo.outIndex &&& (fifo.size - 1)))).toNat =
      min n.toNat (fifo.buffer.length - offset) := by
    rw [toNat_min32, hroom]
  have hread : readRound fifo.buffer offset n.toNat = stored.take n.toNat := by
    rw [hdef, ← hlength]
    exact h.holds.read (by omega)
  have hcopies := copyOut_round (hlength ▸ hoffset) (n := n.toNat) (by omega)
  have hget : fifo.kfifoGet len =
      some (n, stored.take n.toNat, { fifo with outIndex := fifo.outIndex + n }) := by
    have hsub : (n - min32 n (fifo.size - (fifo.outIndex &&& (fifo.size - 1)))).toNat =
        n.toNat - (fifo.buffer.length - offset) := by
      rw [UInt32.toNat_sub_of_le _ _ (UInt32.le_iff_toNat_le.2 (by omega)), hl]
      omega
    obtain ⟨first, hcopy, hcopy'⟩ := Option.bind_eq_some_iff.1 hcopies
    obtain ⟨rest, hcopy', hbytes⟩ := Option.map_eq_some_iff.1 hcopy'
    simp only [MblueFifo.kfifoGet, hn, hl, hsub, h.size.toNat_and, ← hdef, hcopy, hcopy',
      Option.bind_eq_bind, Option.bind_some, Option.pure_def, hbytes, hread]
  have hposition := h.add_mod_size (n := n.toNat) (by omega) fifo.outIndex
  rw [UInt32.ofNat_toNat, ← hlength] at hposition
  refine ⟨n, _, hget, hcount, rfl, h.size, hlength, ?_, (h.holds.drop n.toNat).of_mod_eq hposition,
    fun hsize ↦ ?_⟩
  · have hsplit : UInt32.ofNat stored.length = n + UInt32.ofNat (stored.drop n.toNat).length := by
      calc UInt32.ofNat stored.length
        _ = UInt32.ofNat (n.toNat + (stored.length - n.toNat)) := by
          rw [Nat.add_sub_cancel' (by omega)]
        _ = n + UInt32.ofNat (stored.drop n.toNat).length := by
          rw [UInt32.ofNat_add, UInt32.ofNat_toNat, List.length_drop]
    rw [h.span, hsplit, UInt32.add_assoc]
  · have hzero : fifo.size.toNat = 0 := congrArg UInt32.toNat hsize
    obtain rfl : n = 0 := UInt32.toNat_inj.1 (show n.toNat = 0 by omega)
    rw [h.idle hsize, UInt32.add_zero]

/-- **`reset` empties** the FIFO. -/
theorem reset (h : Represents fifo stored) : Represents fifo.kfifoReset [] :=
  ⟨h.size, h.length, rfl, .nil, fun _ ↦ rfl⟩

/-- **A call** of a FIFO returns what the call of the queue returns. -/
theorem call (h : Represents fifo stored) (c : FifoCall) :
    ∃ fifo', fifo.call c = some ((ByteQueue.call fifo.size.toNat stored c).1, fifo') ∧
      fifo'.size = fifo.size ∧
      Represents fifo' (ByteQueue.call fifo.size.toNat stored c).2 := by
  cases c with
  | put chunk =>
    obtain ⟨n, fifo', hput, hn, hsize, hrep⟩ := h.put chunk
    refine ⟨fifo', ?_, hsize, ?_⟩
    · simp [MblueFifo.call, hput, ByteQueue.call, hn]
    · rw [ByteQueue.call, ← hn]
      exact hrep
  | get len =>
    obtain ⟨n, fifo', hget, hn, hsize, hrep⟩ := h.get len
    refine ⟨fifo', ?_, hsize, ?_⟩
    · simp [MblueFifo.call, hget, ByteQueue.call, hn]
    · rw [ByteQueue.call, ← hn]
      exact hrep
  | len =>
    refine ⟨fifo, ?_, rfl, h⟩
    rw [MblueFifo.call, MblueFifo.kfifoLen, h.toNat_len]
    rfl
  | reset => exact ⟨fifo.kfifoReset, rfl, rfl, h.reset⟩

/-- **A sequence of calls**. -/
theorem run (h : Represents fifo stored) (calls : List FifoCall) :
    ∃ fifo', fifo.run calls = some ((ByteQueue.run fifo.size.toNat stored calls).1, fifo') ∧
      fifo'.size = fifo.size ∧
      Represents fifo' (ByteQueue.run fifo.size.toNat stored calls).2 := by
  induction calls generalizing fifo stored with
  | nil => exact ⟨fifo, rfl, rfl, h⟩
  | cons c calls ih =>
    obtain ⟨fifo₁, hcall, hsize₁, h₁⟩ := h.call c
    obtain ⟨fifo₂, hrun, hsize₂, h₂⟩ := ih h₁
    rw [hsize₁] at hrun h₂
    exact ⟨fifo₂, run_cons hcall hrun, hsize₂.trans hsize₁, h₂⟩

end Represents

/-- A FIFO that has just been allocated is empty. -/
theorem represents_kfifoInit {size : UInt32} (hsize : MaskSize size) :
    Represents (.kfifoInit (List.replicate size.toNat 0) size) [] :=
  ⟨hsize, List.length_replicate, rfl, .nil, fun _ ↦ rfl⟩

/-- A FIFO whose size masks work for is a byte queue. -/
theorem MaskSize.servesAsByteQueue {size : UInt32} (hsize : MaskSize size) :
    (MblueFifo.kfifoInit (List.replicate size.toNat 0) size).ServesAsByteQueue size := by
  intro calls
  obtain ⟨fifo', hrun, hsize', h⟩ := (represents_kfifoInit hsize).run calls
  have hlen : fifo'.kfifoLen.toNat = _ := h.toNat_len
  refine ⟨fifo', hrun, hlen, ?_⟩
  rw [hlen]
  exact h.length_le.trans_eq (congrArg UInt32.toNat hsize')

/-! ### Sizes that masks do not work for -/

/-- A mask that is not all ones up to its highest bit has a zero bit below it. -/
theorem exists_testBit_eq_false {m : ℕ} (h : ∀ k, m + 1 ≠ 2 ^ k) :
    ∃ b, 2 ^ b ≤ m ∧ m.testBit b = false := by
  by_contra hall
  have hones : ∀ b, 2 ^ b ≤ m → m.testBit b = true := fun b hb ↦
    Bool.eq_true_of_not_eq_false fun hfalse ↦ hall ⟨b, hb, hfalse⟩
  have hm : m = 2 ^ m.size - 1 := by
    refine Nat.eq_of_testBit_eq fun i ↦ ?_
    rw [Nat.testBit_two_pow_sub_one]
    by_cases hi : i < m.size
    · rw [hones i (Nat.lt_size.1 hi), decide_eq_true hi]
    · have hlt : m < 2 ^ i := Nat.size_le.1 (Nat.le_of_not_lt hi)
      rw [Nat.testBit_lt_two_pow hlt, decide_eq_false hi]
  have hpos : 1 ≤ 2 ^ m.size := Nat.one_le_two_pow
  exact h m.size (by omega)

/-- A `put` at the start of the buffer. -/
theorem kfifoPut_front (fifo : MblueFifo) (chunk : FifoChunk)
    (hlength : fifo.buffer.length = fifo.size.toNat)
    (hposition : fifo.inIndex &&& (fifo.size - 1) = 0)
    (hfree : chunk.bytes.length ≤ (fifo.size - fifo.inIndex + fifo.outIndex).toNat)
    (hsize : chunk.bytes.length ≤ fifo.size.toNat) :
    fifo.kfifoPut chunk = some (chunk.len, { fifo with
      buffer := chunk.bytes ++ fifo.buffer.drop chunk.bytes.length
      inIndex := fifo.inIndex + chunk.len }) := by
  have hlen := chunk.toNat_len
  have hn : min32 chunk.len (fifo.size - fifo.inIndex + fifo.outIndex) = chunk.len :=
    UInt32.toNat_inj.1 (by rw [toNat_min32]; omega)
  have hl : min32 chunk.len fifo.size = chunk.len :=
    UInt32.toNat_inj.1 (by rw [toNat_min32]; omega)
  have hfirst : copyIn fifo.buffer 0 chunk.bytes =
      some (chunk.bytes ++ fifo.buffer.drop chunk.bytes.length) := by
    rw [copyIn_eq (by omega), overwrite, List.take_zero, List.nil_append, Nat.zero_add]
  have hrest (buffer : List UInt8) : copyIn buffer 0 [] = some buffer := by
    rw [copyIn_eq (Nat.zero_le _), overwrite]
    rfl
  simp [MblueFifo.kfifoPut, hn, hposition, hl, hlen, hfirst, hrest]

/-- A `get` of one byte at the start of the buffer. -/
theorem kfifoGet_front (fifo : MblueFifo) (hlength : fifo.buffer.length = fifo.size.toNat)
    (hposition : fifo.outIndex &&& (fifo.size - 1) = 0) (hsize : fifo.size ≠ 0)
    (hstored : fifo.inIndex ≠ fifo.outIndex) :
    fifo.kfifoGet 1 =
      some (1, fifo.buffer.take 1, { fifo with outIndex := fifo.outIndex + 1 }) := by
  have hone : (1 : UInt32).toNat = 1 := rfl
  have hpos : 0 < fifo.size.toNat := Nat.pos_of_ne_zero fun h ↦ hsize (UInt32.toNat_inj.1 h)
  have hsome : 0 < (fifo.inIndex - fifo.outIndex).toNat :=
    Nat.pos_of_ne_zero fun h ↦ hstored (by
      have hsub : fifo.inIndex - fifo.outIndex = 0 := UInt32.toNat_inj.1 h
      grind)
  have hn : min32 1 (fifo.inIndex - fifo.outIndex) = 1 :=
    UInt32.toNat_inj.1 (by rw [toNat_min32]; omega)
  have hl : min32 1 fifo.size = 1 :=
    UInt32.toNat_inj.1 (by rw [toNat_min32]; omega)
  have hfirst : copyOut fifo.buffer 0 1 = some (fifo.buffer.take 1) := copyOut_eq (by omega)
  have hrest : copyOut fifo.buffer 0 0 = some [] := copyOut_eq (by omega)
  simp [MblueFifo.kfifoGet, hn, hposition, hl, hfirst, hrest]

/-- Zeros to be put. -/
def zeroChunk (n : ℕ) (hn : n < 2 ^ 32) : FifoChunk :=
  ⟨List.replicate n 0, by rwa [List.length_replicate]⟩

/-- A one to be put. -/
def oneChunk : FifoChunk :=
  ⟨[1], by decide⟩

/-- Zeros up to the position that the mask takes to the start of the buffer, and a one there. -/
def collidingCalls (b : ℕ) (hb : 2 ^ b < 2 ^ 32) : List FifoCall :=
  [.put (zeroChunk (2 ^ b) hb), .put oneChunk, .get 1]

/-- The zeros lie in the buffer, as many as its position says. -/
theorem kfifoPut_zeros {size : UInt32} {n : ℕ} (hn : n < 2 ^ 32) (hsize : n ≤ size.toNat) :
    (MblueFifo.kfifoInit (List.replicate size.toNat 0) size).kfifoPut (zeroChunk n hn) =
      some (UInt32.ofNat n, ⟨List.replicate size.toNat 0, size, UInt32.ofNat n, 0⟩) := by
  have hbytes : (zeroChunk n hn).bytes.length = n := List.length_replicate
  have hlen : (zeroChunk n hn).len = UInt32.ofNat n := congrArg UInt32.ofNat hbytes
  have hbuffer : (zeroChunk n hn).bytes ++ (List.replicate size.toNat (0 : UInt8)).drop n =
      List.replicate size.toNat 0 := by
    rw [zeroChunk, List.drop_replicate, List.replicate_append_replicate, Nat.add_sub_cancel' hsize]
  have hput := kfifoPut_front ⟨List.replicate size.toNat 0, size, 0, 0⟩ (zeroChunk n hn)
    List.length_replicate UInt32.zero_and
    (by rw [hbytes, UInt32.sub_zero, UInt32.add_zero]; exact hsize) (by rw [hbytes]; exact hsize)
  rwa [hlen, hbytes, hbuffer, UInt32.zero_add] at hput

/-- The one overwrites the first zero. -/
theorem run_collidingCalls {size : UInt32} {b : ℕ} (hsize : 2 ^ b < size.toNat)
    (hbit : (size.toNat - 1).testBit b = false) :
    ∃ fifo, (MblueFifo.kfifoInit (List.replicate size.toNat 0) size).run
      (collidingCalls b (hsize.trans size.toNat_lt)) =
        some ([.accepted (2 ^ b), .accepted 1, .taken 1 [1]], fifo) := by
  have hlt : 2 ^ b < 2 ^ 32 := hsize.trans size.toNat_lt
  have hnat : (UInt32.ofNat (2 ^ b)).toNat = 2 ^ b := by
    rw [UInt32.toNat_ofNat', Nat.mod_eq_of_lt hlt]
  have hfirst := kfifoPut_zeros hlt hsize.le
  generalize UInt32.ofNat (2 ^ b) = n at hfirst hnat
  have hone : (1 : UInt32) ≤ size := by
    rw [UInt32.le_iff_toNat_le]
    exact Nat.one_le_of_lt hsize
  have hmask : n &&& (size - 1) = 0 := by
    have hzero : (size - 1).toNat = size.toNat - 1 := UInt32.toNat_sub_of_le _ _ hone
    rw [← UInt32.toNat_inj, UInt32.toNat_and, hnat, hzero, Nat.land_comm, Nat.and_two_pow, hbit]
    exact Nat.zero_mul _
  have hfree : (size - n + 0).toNat = size.toNat - 2 ^ b := by
    rw [UInt32.add_zero, UInt32.toNat_sub_of_le _ _ (UInt32.le_iff_toNat_le.2 (by omega)), hnat]
  have hbytes : oneChunk.bytes.length = 1 := rfl
  have hsecond := kfifoPut_front ⟨List.replicate size.toNat 0, size, n, 0⟩ oneChunk
    List.length_replicate hmask (by simp only [hfree, hbytes]; omega)
    (by simp only [hbytes]; omega)
  have hmoved : n + oneChunk.len ≠ 0 := by
    intro h
    have hsum : (n.toNat + 1) % 2 ^ 32 = 0 := congrArg UInt32.toNat h
    have := size.toNat_lt
    omega
  have hthird := kfifoGet_front ⟨oneChunk.bytes ++ (List.replicate size.toNat 0).drop
    oneChunk.bytes.length, size, n + oneChunk.len, 0⟩ (by simp [oneChunk]; omega) UInt32.zero_and
    (fun h : size = 0 ↦ by simp [h] at hsize) hmoved
  have hfirst' := call_put hfirst
  have hsecond' := call_put hsecond
  have hthird' := call_get hthird
  rw [hnat] at hfirst'
  exact ⟨_, run_cons hfirst' (run_cons hsecond' (run_cons hthird' rfl))⟩

/-- The queue returns the first zero. -/
theorem byteQueue_collidingCalls {capacity b : ℕ} (hb : 2 ^ b < 2 ^ 32) (hsize : 2 ^ b < capacity) :
    (ByteQueue.run capacity [] (collidingCalls b hb)).1 =
      [.accepted (2 ^ b), .accepted 1, .taken 1 [0]] := by
  obtain ⟨n, hn⟩ : ∃ n, 2 ^ b = n + 1 := Nat.exists_eq_add_of_le' Nat.one_le_two_pow
  have hzeros : min (n + 1) capacity = n + 1 := by omega
  have hone : min 1 (capacity - (n + 1)) = 1 := by omega
  simp [collidingCalls, ByteQueue.run, ByteQueue.call, zeroChunk, oneChunk, hn, hzeros, hone,
    List.replicate_succ]

/-- A FIFO whose mask has a zero bit below its highest one is not a byte queue. -/
theorem not_servesAsByteQueue (size : UInt32) (b : ℕ) (hsize : 2 ^ b < size.toNat)
    (hbit : (size.toNat - 1).testBit b = false) :
    ¬(MblueFifo.kfifoInit (List.replicate size.toNat 0) size).ServesAsByteQueue size := by
  intro hserves
  have hlt := hsize.trans size.toNat_lt
  obtain ⟨fifo₁, hrun, -⟩ := hserves (collidingCalls b hlt)
  obtain ⟨fifo₂, hcollides⟩ := run_collidingCalls hsize hbit
  rw [hcollides, byteQueue_collidingCalls hlt hsize] at hrun
  have hresults := congrArg Prod.fst (Option.some.inj hrun)
  simp at hresults

/-- **The sizes for which the allocator gives a byte queue**: nothing rounds them up. -/
theorem mblueFifoAlloc_servesAsByteQueue_iff {bufferFound fifoFound : Bool} {size : UInt32}
    {fifo : MblueFifo}
    (halloc : MblueFifo.mblueFifoAlloc bufferFound fifoFound size = some fifo) :
    fifo.ServesAsByteQueue size ↔ size = 0 ∨ ∃ k, size.toNat = 2 ^ k := by
  obtain ⟨-, hfifo⟩ := Option.ite_none_right_eq_some.1 halloc
  obtain rfl := Option.some.inj hfifo
  constructor
  · intro hserves
    by_contra hsize
    obtain ⟨hzero, hpow⟩ := not_or.1 hsize
    have hpos : 0 < size.toNat := Nat.pos_of_ne_zero fun h ↦ hzero (UInt32.toNat_inj.1 h)
    obtain ⟨b, hb, hbit⟩ := exists_testBit_eq_false (m := size.toNat - 1)
      fun k hk ↦ hpow ⟨k, by omega⟩
    exact not_servesAsByteQueue size b (by omega) hbit hserves
  · exact MaskSize.servesAsByteQueue

/-- A FIFO of four bytes is a byte queue. -/
theorem mblueFifoAlloc_serves_four :
    (MblueFifo.kfifoInit (List.replicate 4 0) 4).ServesAsByteQueue 4 :=
  (mblueFifoAlloc_servesAsByteQueue_iff (show MblueFifo.mblueFifoAlloc true true 4 = some _
    from rfl)).2 (.inr ⟨2, rfl⟩)

/-- A FIFO of three bytes is not. -/
theorem not_servesAsByteQueue_three :
    ¬∀ size fifo, MblueFifo.mblueFifoAlloc true true size = some fifo →
      fifo.ServesAsByteQueue size := by
  intro h
  exact not_servesAsByteQueue 3 0 (by decide) (by decide) (h 3 _ rfl)

end Mblue
