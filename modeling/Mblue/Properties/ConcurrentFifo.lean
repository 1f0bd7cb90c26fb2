import Mblue.Library.Runs
import Mblue.Properties.ByteFifo
import Mblue.RingBuffer.Concurrent

/-!
# One writer and one reader without a lock

`inOrder_of_run` — in every interleaving of a writer's puts and a reader's gets, step by step, what
the reader has copied is what the writer put in first, in order; the rest of what was put in is what
the FIFO stores; and every copy of a byte is possible, inside the buffers.

**The condition `Steady` is needed.** `MIN` reads the other side's counter a second time when its
caller's `len` is not the smaller one, and takes what it finds then. When the other side has moved on
in between, this can be more than `len`: `__kfifo_put` copies bytes from behind its caller's buffer,
`__kfifo_get` bytes to behind it (`not_inOrder_put`, `not_inOrder_get`). Under the condition the
second value is still not above `len`, which it is not if the counter has not moved.

The invariant is `Shares`: behind the bytes that are stored lie the bytes that the writer has copied
and not yet counted. What the other side does after that only makes more room, or more bytes, than
was read.
-/

namespace Mblue

open CyclicBuffer

/-- A position in the buffer, by its distance from a counter. -/
theorem copyPosition_eq {offset l : UInt32} {x len k n : ℕ} (hoffset : offset.toNat = x % n)
    (hl : l.toNat = min len (n - x % n)) (hk : k < len) (hlen : len ≤ n) :
    copyPosition offset l k = (x + k) % n := by
  have hlt : x % n < n := Nat.mod_lt _ (by omega)
  have hmod : (x + k) % n = (x % n + k) % n := (Nat.mod_add_mod x n k).symm
  rw [copyPosition, hoffset, hl, hmod]
  generalize x % n = position at hlt
  split
  · rw [Nat.mod_eq_of_lt (by omega)]
  · rw [Nat.mod_eq_sub_mod (by omega), Nat.mod_eq_of_lt (by omega)]
    omega

namespace SharedFifo

/-- **The second read of `MIN`** does not find more than its caller's `len`. -/
def steady (s : SharedFifo) (l : FifoStep) : Bool :=
  match l, s.writer, s.reader with
  | .putLen, some (.compared chunk false), _ =>
    decide (s.fifo.size - s.fifo.inIndex + s.fifo.outIndex ≤ chunk.len)
  | .getLen, _, some (.compared dest false) =>
    decide (s.fifo.inIndex - s.fifo.outIndex ≤ dest)
  | _, _, _ => true

/-- The condition on the steps of a run. -/
def Steady (s : SharedFifo) (l : FifoStep) : Prop := s.steady l = true

instance (s : SharedFifo) (l : FifoStep) : Decidable (Steady s l) :=
  inferInstanceAs (Decidable (s.steady l = true))

/-- The bytes the writer has copied. -/
def ahead (s : SharedFifo) : List UInt8 :=
  match s.writer with
  | some (.copying w) => (w.chunk.bytes.take w.len.toNat).take w.copied
  | _ => []

/-- The bytes the reader has copied. -/
def copied (s : SharedFifo) : List UInt8 :=
  match s.reader with
  | some (.copying r) => r.copied
  | _ => []

theorem ahead_copying {s : SharedFifo} {w : Putting} (hw : s.writer = some (.copying w)) :
    s.ahead = (w.chunk.bytes.take w.len.toNat).take w.copied := by
  unfold ahead
  rw [hw]

theorem copied_copying {s : SharedFifo} {r : Getting} (hr : s.reader = some (.copying r)) :
    s.copied = r.copied := by
  unfold copied
  rw [hr]

/-- What the writer has computed: there is room for what it copies. -/
structure Writes (size inIndex : UInt32) (stored : List UInt8) (w : Putting) : Prop where
  le_chunk : w.len.toNat ≤ w.chunk.bytes.length
  room : w.len.toNat ≤ size.toNat - stored.length
  l_eq : w.l.toNat = min w.len.toNat (size.toNat - inIndex.toNat % size.toNat)
  copied_le : w.copied ≤ w.len.toNat

/-- What the reader has computed: what it copies is stored, and its caller's buffer takes it. -/
structure Takes (size outIndex : UInt32) (stored : List UInt8) (r : Getting) : Prop where
  le_dest : r.len.toNat ≤ r.dest.toNat
  le_stored : r.len.toNat ≤ stored.length
  l_eq : r.l.toNat = min r.len.toNat (size.toNat - outIndex.toNat % size.toNat)
  copied_le : r.copied.length ≤ r.len.toNat
  copied_start : r.copied <+: stored

/-- A FIFO that a writer and a reader share, and what is stored in it. -/
structure Shares (s : SharedFifo) (stored : List UInt8) : Prop where
  size : MaskSize s.fifo.size
  length : s.fifo.buffer.length = s.fifo.size.toNat
  span : s.fifo.inIndex = s.fifo.outIndex + UInt32.ofNat stored.length
  idle : s.fifo.size = 0 → s.fifo.outIndex = 0
  holds : Holds s.fifo.buffer s.fifo.outIndex.toNat (stored ++ s.ahead)
  put_eq : s.put = s.got ++ stored
  fits : ∀ chunk, s.writer = some (.compared chunk true) →
    chunk.bytes.length ≤ s.fifo.size.toNat - stored.length
  waits : ∀ dest, s.reader = some (.compared dest true) → dest.toNat ≤ stored.length
  writer : ∀ w, s.writer = some (.copying w) → Writes s.fifo.size s.fifo.inIndex stored w
  reader : ∀ r, s.reader = some (.copying r) → Takes s.fifo.size s.fifo.outIndex stored r

/-- **In order**: the reader has copied what was put in first, the FIFO stores the rest, and every
byte that is to be copied can be. -/
structure InOrder (s : SharedFifo) : Prop where
  inOrder : s.got ++ s.copied <+: s.put
  stored : ∃ stored, s.put = s.got ++ stored ∧ s.fifo.kfifoLen.toNat = stored.length ∧
    Holds s.fifo.buffer s.fifo.outIndex.toNat stored
  putByte : ∀ w, s.writer = some (.copying w) → w.copied < w.len.toNat → ∃ s', s.putByte = some s'
  getByte : ∀ r, s.reader = some (.copying r) → r.copied.length < r.len.toNat →
    ∃ s', s.getByte = some s'

namespace Shares

variable {s s' : SharedFifo} {stored : List UInt8}

theorem represents (h : Shares s stored) : Represents s.fifo stored :=
  ⟨h.size, h.length, h.span, h.holds.front, h.idle⟩

theorem initial {buffer : List UInt8} {size : UInt32} (hsize : MaskSize size)
    (hlength : buffer.length = size.toNat) : Shares (SharedFifo.initial buffer size) [] where
  size := hsize
  length := hlength
  span := rfl
  idle _ := rfl
  holds := .nil
  put_eq := rfl
  fits _ hw := by cases hw
  waits _ hr := by cases hr
  writer _ hw := by cases hw
  reader _ hr := by cases hr

/-! ### The writer -/

theorem putBegin {chunk : FifoChunk} (h : Shares s stored) (hstep : s.putBegin chunk = some s') :
    Shares s' stored := by
  have hrep := h.represents
  unfold SharedFifo.putBegin at hstep
  split at hstep
  · cases hstep
  · next hwriter =>
    obtain rfl := Option.some.inj hstep
    have hholds := h.holds
    unfold ahead at hholds
    rw [hwriter] at hholds
    refine ⟨h.size, h.length, h.span, h.idle, hholds, h.put_eq, ?_, h.waits, ?_, h.reader⟩
    · intro chunk' hw
      obtain ⟨rfl, hless⟩ := Writer.compared.inj (Option.some.inj hw)
      have hlt := UInt32.lt_iff_toNat_lt.1 (of_decide_eq_true hless)
      rw [chunk.toNat_len, hrep.toNat_free] at hlt
      exact hlt.le
    · intro w hw
      cases hw

/-- **The length of a put** fits into the room, and is not above the caller's. -/
theorem putLen (h : Shares s stored) (hok : Steady s .putLen) (hstep : s.putLen = some s') :
    Shares s' stored := by
  have hrep := h.represents
  have hmod := hrep.mod_le hrep.inIndex_idle
  unfold SharedFifo.putLen at hstep
  split at hstep
  · next chunk less hwriter =>
    obtain rfl := Option.some.inj hstep
    have hholds := h.holds
    unfold ahead at hholds
    rw [hwriter] at hholds
    refine ⟨h.size, h.length, h.span, h.idle, hholds, h.put_eq, ?_, h.waits, ?_, h.reader⟩
    · intro chunk' hw
      cases hw
    · intro w hw
      obtain rfl := Writer.copying.inj (Option.some.inj hw)
      have hl (len : UInt32) :
          (min32 len (s.fifo.size - (s.fifo.inIndex &&& (s.fifo.size - 1)))).toNat =
            min len.toNat (s.fifo.size.toNat - s.fifo.inIndex.toNat % s.fifo.size.toNat) := by
        rw [toNat_min32 _ (_ - _), hrep.toNat_size_sub _ hmod, h.length]
      cases less with
      | true =>
        exact ⟨chunk.toNat_len.le, chunk.toNat_len ▸ h.fits chunk hwriter, hl _, Nat.zero_le _⟩
      | false =>
        unfold Steady steady at hok
        rw [hwriter] at hok
        have hle := UInt32.le_iff_toNat_le.1 (of_decide_eq_true hok)
        rw [chunk.toNat_len] at hle
        exact ⟨hle, hrep.toNat_free.le, hl _, Nat.zero_le _⟩
  · cases hstep

/-- The room behind what is stored and copied. -/
theorem room {w : Putting} (h : Shares s stored) (hw : s.writer = some (.copying w))
    (hlt : w.copied < w.len.toNat) :
    s.ahead.length = w.copied ∧ (stored ++ s.ahead).length < s.fifo.buffer.length ∧
      (s.fifo.outIndex.toNat + (stored ++ s.ahead).length) % s.fifo.buffer.length =
        copyPosition (s.fifo.inIndex &&& (s.fifo.size - 1)) w.l w.copied := by
  have hwrites := h.writer w hw
  have hle := hwrites.le_chunk
  have hroom := hwrites.room
  have hstored := h.represents.length_le
  have hahead : s.ahead.length = w.copied := by
    rw [ahead_copying hw, List.length_take, List.length_take]
    omega
  refine ⟨hahead, ?_, ?_⟩
  · rw [List.length_append, hahead, h.length]
    omega
  · rw [copyPosition_eq (h.size.toNat_and _) hwrites.l_eq hlt (by omega), List.length_append,
      hahead, h.length, ← Nat.add_assoc, ← Nat.mod_add_mod,
      ← h.represents.add_mod_size hstored, ← h.span, Nat.mod_add_mod]

/-- **A byte is copied behind** what is stored and copied. -/
theorem putByte {w : Putting} (h : Shares s stored) (hw : s.writer = some (.copying w))
    (hlt : w.copied < w.len.toNat) : ∃ s', s.putByte = some s' ∧ Shares s' stored := by
  have hwrites := h.writer w hw
  obtain ⟨hahead, hroom, hpos⟩ := h.room hw hlt
  have hle := hwrites.le_chunk
  have hlen : (w.chunk.bytes.take w.len.toNat).length = w.len.toNat := by
    rw [List.length_take]
    omega
  generalize hsrc : w.chunk.bytes.take w.len.toNat = src at hlen
  have hcopied : w.copied < src.length := by omega
  have hbyte : src[w.copied]? = some src[w.copied] := List.getElem?_eq_getElem _
  have hposition : copyPosition (s.fifo.inIndex &&& (s.fifo.size - 1)) w.l w.copied <
      s.fifo.buffer.length := hpos ▸ Nat.mod_lt _ (by omega)
  refine ⟨_, by simp [SharedFifo.putByte, hw, hsrc, hbyte, hposition]; rfl, ?_⟩
  have hholds := h.holds.set hroom src[w.copied]
  rw [hpos, List.append_assoc] at hholds
  have hnext : s.ahead ++ [src[w.copied]] = src.take (w.copied + 1) := by
    rw [List.take_succ_eq_append_getElem (by omega), ahead_copying hw, hsrc]
  refine ⟨h.size, (List.length_set ..).trans h.length, h.span, h.idle, ?_, h.put_eq, ?_, h.waits,
    ?_, h.reader⟩
  · show Holds _ _ (stored ++ (w.chunk.bytes.take w.len.toNat).take (w.copied + 1))
    rwa [hsrc, ← hnext]
  · intro chunk hw'
    cases hw'
  · rintro w' hw'
    obtain rfl := Writer.copying.inj (Option.some.inj hw')
    exact ⟨hle, hwrites.room, hwrites.l_eq, hlt⟩

/-- **The bytes that were copied are stored** when the counter is advanced. -/
theorem putEnd (h : Shares s stored) (hstep : s.putEnd = some s') :
    ∃ bytes, Shares s' (stored ++ bytes) := by
  unfold SharedFifo.putEnd at hstep
  split at hstep
  · next w hw =>
    obtain ⟨hdone, hstep⟩ := Option.ite_none_right_eq_some.1 hstep
    obtain rfl := Option.some.inj hstep
    have hwrites := h.writer w hw
    have hlen : (w.chunk.bytes.take w.len.toNat).length = w.len.toNat := by
      rw [List.length_take]
      exact Nat.min_eq_left hwrites.le_chunk
    have hahead : s.ahead = w.chunk.bytes.take w.len.toNat := by
      rw [ahead_copying hw, hdone, List.take_of_length_le hlen.le]
    have hspan : s.fifo.inIndex + w.len = s.fifo.outIndex +
        UInt32.ofNat (stored ++ w.chunk.bytes.take w.len.toNat).length := by
      rw [h.span, List.length_append, hlen, UInt32.ofNat_add, UInt32.ofNat_toNat, UInt32.add_assoc]
    refine ⟨w.chunk.bytes.take w.len.toNat, h.size, h.length, hspan, h.idle, ?_, ?_, ?_, ?_, ?_, ?_⟩
    · show Holds _ _ (stored ++ w.chunk.bytes.take w.len.toNat ++ [])
      rw [List.append_nil, ← hahead]
      exact h.holds
    · rw [← List.append_assoc, ← h.put_eq]
    · intro chunk hw'
      cases hw'
    · intro dest hr
      exact (h.waits dest hr).trans (by rw [List.length_append]; omega)
    · intro w' hw'
      cases hw'
    · intro r hr
      obtain ⟨hdest, hle, hl, hcopied, hprefix⟩ := h.reader r hr
      refine ⟨hdest, ?_, hl, hcopied, hprefix.trans (List.prefix_append _ _)⟩
      rw [List.length_append]
      omega
  · cases hstep

/-! ### The reader -/

theorem getBegin {len : UInt32} (h : Shares s stored) (hstep : s.getBegin len = some s') :
    Shares s' stored := by
  have hrep := h.represents
  unfold SharedFifo.getBegin at hstep
  split at hstep
  · cases hstep
  · obtain rfl := Option.some.inj hstep
    refine ⟨h.size, h.length, h.span, h.idle, h.holds, h.put_eq, h.fits, ?_, h.writer, ?_⟩
    · intro dest hr
      obtain ⟨rfl, hless⟩ := Reader.compared.inj (Option.some.inj hr)
      have hlt := UInt32.lt_iff_toNat_lt.1 (of_decide_eq_true hless)
      have hstored : (s.fifo.inIndex - s.fifo.outIndex).toNat = stored.length := hrep.toNat_len
      rw [hstored] at hlt
      exact hlt.le
    · intro r hr
      cases hr

/-- **The length of a get** is stored, and is not above the caller's. -/
theorem getLen (h : Shares s stored) (hok : Steady s .getLen) (hstep : s.getLen = some s') :
    Shares s' stored := by
  have hrep := h.represents
  unfold SharedFifo.getLen at hstep
  split at hstep
  · next dest less hreader =>
    obtain rfl := Option.some.inj hstep
    refine ⟨h.size, h.length, h.span, h.idle, h.holds, h.put_eq, h.fits, ?_, h.writer, ?_⟩
    · intro dest' hr
      cases hr
    · intro r hr
      obtain rfl := Reader.copying.inj (Option.some.inj hr)
      have hl (len : UInt32) :
          (min32 len (s.fifo.size - (s.fifo.outIndex &&& (s.fifo.size - 1)))).toNat =
            min len.toNat (s.fifo.size.toNat - s.fifo.outIndex.toNat % s.fifo.size.toNat) := by
        rw [toNat_min32 _ (_ - _), hrep.toNat_size_sub _ (hrep.mod_le hrep.idle), h.length]
      have hstored : (s.fifo.inIndex - s.fifo.outIndex).toNat = stored.length := hrep.toNat_len
      cases less with
      | true => exact ⟨le_rfl, h.waits dest hreader, hl _, Nat.zero_le _, List.nil_prefix⟩
      | false =>
        unfold Steady steady at hok
        rw [hreader] at hok
        have hle := UInt32.le_iff_toNat_le.1 (of_decide_eq_true hok)
        exact ⟨hle, hstored.le, hl _, Nat.zero_le _, List.nil_prefix⟩
  · cases hstep

/-- **A stored byte is copied**, the next one. -/
theorem getByte {r : Getting} (h : Shares s stored) (hr : s.reader = some (.copying r))
    (hlt : r.copied.length < r.len.toNat) : ∃ s', s.getByte = some s' ∧ Shares s' stored := by
  have htakes := h.reader r hr
  have hle := htakes.le_stored
  have hdest : r.copied.length < r.dest.toNat := hlt.trans_le htakes.le_dest
  have hstored := h.represents.length_le
  have hpos := copyPosition_eq (h.size.toNat_and s.fifo.outIndex) htakes.l_eq hlt (by omega)
  have hnext : r.copied.length < stored.length := by omega
  have hbyte : s.fifo.buffer[copyPosition (s.fifo.outIndex &&& (s.fifo.size - 1)) r.l
      r.copied.length]? = some stored[r.copied.length] := by
    rw [hpos, ← h.length, h.represents.holds.cell _ (by omega), List.getElem?_eq_getElem]
  refine ⟨_, by simp [SharedFifo.getByte, hr, hlt, hdest, hbyte]; rfl, ?_⟩
  refine ⟨h.size, h.length, h.span, h.idle, h.holds, h.put_eq, h.fits, ?_, h.writer, ?_⟩
  · intro dest hr'
    cases hr'
  · intro r' hr'
    obtain rfl := Reader.copying.inj (Option.some.inj hr')
    refine ⟨htakes.le_dest, hle, htakes.l_eq, ?_, ?_⟩
    · rw [List.length_append]
      exact hlt
    · have hcopied := List.prefix_iff_eq_take.1 htakes.copied_start
      have htaken : r.copied ++ [stored[r.copied.length]] =
          stored.take (r.copied.length + 1) := by
        rw [List.take_succ_eq_append_getElem (by omega), ← hcopied]
      exact htaken ▸ List.take_prefix _ _

/-- **The bytes that were copied are given up** when the counter is advanced. -/
theorem getEnd (h : Shares s stored) (hstep : s.getEnd = some s') :
    ∃ n, Shares s' (stored.drop n) := by
  unfold SharedFifo.getEnd at hstep
  split at hstep
  · next r hr =>
    obtain ⟨hdone, hstep⟩ := Option.ite_none_right_eq_some.1 hstep
    obtain rfl := Option.some.inj hstep
    have hrep := h.represents
    have htakes := h.reader r hr
    have hle := htakes.le_stored
    have hstored := hrep.length_le
    have hcopied : r.copied = stored.take r.len.toNat := by
      rw [← hdone]
      exact List.prefix_iff_eq_take.1 htakes.copied_start
    -- the counter moves past what was copied and no further
    have hsplit : UInt32.ofNat stored.length =
        r.len + UInt32.ofNat (stored.drop r.len.toNat).length := by
      calc UInt32.ofNat stored.length
        _ = UInt32.ofNat (r.len.toNat + (stored.length - r.len.toNat)) := by
          rw [Nat.add_sub_cancel' hle]
        _ = r.len + UInt32.ofNat (stored.drop r.len.toNat).length := by
          rw [UInt32.ofNat_add, UInt32.ofNat_toNat, List.length_drop]
    have hposition := hrep.add_mod_size (n := r.len.toNat) (by omega) s.fifo.outIndex
    rw [UInt32.ofNat_toNat, ← h.length] at hposition
    have hholds := (h.holds.drop r.len.toNat).of_mod_eq hposition
    rw [List.drop_append_of_le_length hle] at hholds
    refine ⟨r.len.toNat, h.size, h.length, ?_, ?_, hholds, ?_, ?_, ?_, ?_, ?_⟩
    · show s.fifo.inIndex = s.fifo.outIndex + r.len + _
      rw [h.span, hsplit, UInt32.add_assoc]
    · intro hsize
      have hzero : s.fifo.size.toNat = 0 := congrArg UInt32.toNat hsize
      have hlen : r.len = 0 := UInt32.toNat_inj.1 (show r.len.toNat = 0 by omega)
      show s.fifo.outIndex + r.len = 0
      rw [h.idle hsize, hlen]
      rfl
    · show s.put = s.got ++ r.copied ++ stored.drop r.len.toNat
      rw [h.put_eq, hcopied, List.append_assoc, List.take_append_drop]
    · intro chunk hw
      refine (h.fits chunk hw).trans ?_
      show _ ≤ s.fifo.size.toNat - (stored.drop r.len.toNat).length
      rw [List.length_drop]
      omega
    · intro dest hr'
      cases hr'
    · intro w hw
      obtain ⟨hchunk, hroom, hl, hwritten⟩ := h.writer w hw
      refine ⟨hchunk, ?_, hl, hwritten⟩
      show w.len.toNat ≤ s.fifo.size.toNat - (stored.drop r.len.toNat).length
      rw [List.length_drop]
      omega
    · rintro r' hr'
      cases hr'
  · cases hstep

/-- **A step keeps it.** -/
theorem step {l : FifoStep} (h : Shares s stored) (hok : Steady s l) (hstep : s.step l = some s') :
    ∃ stored', Shares s' stored' := by
  cases l with
  | putBegin chunk => exact ⟨stored, h.putBegin hstep⟩
  | putLen => exact ⟨stored, h.putLen hok hstep⟩
  | putByte =>
    have hbyte : s.putByte = some s' := hstep
    unfold SharedFifo.putByte at hbyte
    split at hbyte
    · next w hw =>
      obtain ⟨b, hb, -⟩ := Option.bind_eq_some_iff.1 hbyte
      have hlt : w.copied < w.len.toNat := by
        have hin := (List.getElem?_eq_some_iff.1 hb).1
        rw [List.length_take] at hin
        omega
      obtain ⟨s₁, hput, hs₁⟩ := h.putByte hw hlt
      obtain rfl := Option.some.inj (hput.symm.trans hstep)
      exact ⟨stored, hs₁⟩
    · cases hbyte
  | putEnd =>
    obtain ⟨bytes, hs'⟩ := h.putEnd hstep
    exact ⟨_, hs'⟩
  | getBegin len => exact ⟨stored, h.getBegin hstep⟩
  | getLen => exact ⟨stored, h.getLen hok hstep⟩
  | getByte =>
    have hbyte : s.getByte = some s' := hstep
    unfold SharedFifo.getByte at hbyte
    split at hbyte
    · next r hr =>
      obtain ⟨hlt, -⟩ := Option.ite_none_right_eq_some.1 hbyte
      obtain ⟨s₁, hget, hs₁⟩ := h.getByte hr hlt.1
      obtain rfl := Option.some.inj (hget.symm.trans hstep)
      exact ⟨stored, hs₁⟩
    · cases hbyte
  | getEnd =>
    obtain ⟨n, hs'⟩ := h.getEnd hstep
    exact ⟨_, hs'⟩

theorem inOrder (h : Shares s stored) : InOrder s where
  inOrder := by
    rw [h.put_eq, List.prefix_append_right_inj]
    unfold copied
    split
    · next r hr => exact (h.reader r hr).copied_start
    · exact List.nil_prefix
  stored := ⟨stored, h.put_eq, h.represents.toNat_len, h.represents.holds⟩
  putByte _ hw hlt := (h.putByte hw hlt).imp fun _ hs' ↦ hs'.1
  getByte _ hr hlt := (h.getByte hr hlt).imp fun _ hs' ↦ hs'.1

end Shares

/-- **One writer and one reader need no lock**, while the second read of `MIN` finds no more than
its caller's `len`. -/
theorem inOrder_of_run {buffer : List UInt8} {size : UInt32} {s : SharedFifo}
    (hsize : MaskSize size) (hlength : buffer.length = size.toNat)
    (h : Run step Steady (initial buffer size) s) : InOrder s := by
  have hshares : ∃ stored, Shares s stored := by
    refine h.invariant (P := fun s ↦ ∃ stored, Shares s stored) ⟨[], .initial hsize hlength⟩ ?_
    rintro a b l ⟨stored, hs⟩ hok hstep
    exact hs.step hok hstep
  obtain ⟨stored, hs⟩ := hshares
  exact hs.inOrder

/-- The writer goes round the end of two cells while the reader copies. -/
theorem inOrder_round : ∃ s, exec SharedFifo.step Steady (initial [0, 0] 2)
      [.putBegin (.mk [1] (by decide)), .putLen, .putByte, .putEnd,
        .putBegin (.mk [2, 3] (by decide)), .putLen, .putByte, .getBegin 5, .getLen, .getByte,
        .putEnd, .putBegin (.mk [3] (by decide)), .putLen, .getEnd, .putEnd,
        .putBegin (.mk [3] (by decide)), .putLen, .putByte] = some s ∧
    (s.got, s.fifo.buffer) = ([1], [3, 2]) ∧ InOrder s := by
  have hsize : MaskSize 2 := .inr ⟨1, rfl⟩
  have hlength : ([0, 0] : List UInt8).length = UInt32.toNat 2 := rfl
  exact exists_of_exec_eq rfl fun _ h ↦ inOrder_of_run hsize hlength h

/-- A put of one byte finds no room, the reader takes four bytes, and the put copies four. -/
theorem not_inOrder_put : ∃ s, exec SharedFifo.step (fun _ _ ↦ True) (initial [0, 0, 0, 0] 4)
      ([.putBegin (.mk [1, 2, 3, 4] (by decide)), .putLen] ++ List.replicate 4 .putByte ++
        [.putEnd, .putBegin (.mk [9] (by decide)), .getBegin 4, .getLen] ++
        List.replicate 4 .getByte ++ [.getEnd, .putLen, .putByte]) = some s ∧ ¬InOrder s := by
  refine ⟨_, rfl, fun h ↦ ?_⟩
  obtain ⟨s', hs'⟩ := h.putByte _ rfl (by decide)
  cases hs'

/-- A get of one byte finds none, the writer puts two, and the get copies two. -/
theorem not_inOrder_get : ∃ s, exec SharedFifo.step (fun _ _ ↦ True) (initial [0, 0, 0, 0] 4)
      [.getBegin 1, .putBegin (.mk [1, 2] (by decide)), .putLen, .putByte, .putByte, .putEnd,
        .getLen, .getByte] = some s ∧ ¬InOrder s := by
  refine ⟨_, rfl, fun h ↦ ?_⟩
  obtain ⟨s', hs'⟩ := h.getByte _ rfl (by decide)
  cases hs'

end SharedFifo

end Mblue
