import Mblue.Queue.MblueQueue

/-!
# A queue in memory

`mblue_queue.c` once more, on the struct as it lies in memory: three `int` members and an array of
as many cells as the queue was constructed for. An access outside the array is `none`. `Stores` ties
the struct to the ring buffer of `Queue/MblueQueue.lean`, and each operation keeps it: the array is
only accessed at positions of the ring.
-/

namespace Mblue

/-- `struct mblue_queue` and the array its member `data` points at. -/
structure QueueMemory (α : Type) where
  size : ℤ
  next : ℤ
  capacity : ℤ
  data : List α
  deriving DecidableEq, Repr

/-- The calls of a queue. -/
inductive QueueCall (α : Type)
  | add (value : α)
  | remove
  | peek
  | getSize
  deriving DecidableEq, Repr

/-- What a call returns: an error code, an element or `NULL`, or the size. -/
inductive QueueResult (α : Type)
  | code (c : ℤ)
  | item (value : Option α)
  | size (n : ℤ)
  deriving DecidableEq, Repr

namespace QueueMemory

variable {α : Type}

/-- `queue->data[pos]`. -/
def load (queue : QueueMemory α) (pos : ℤ) : Option α :=
  if 0 ≤ pos then queue.data[pos.toNat]? else none

/-- `queue->data[pos] = value`. -/
def store (queue : QueueMemory α) (pos : ℤ) (value : α) : Option (QueueMemory α) :=
  if 0 ≤ pos ∧ pos < queue.data.length then
    some { queue with data := queue.data.set pos.toNat value }
  else none

/-- `mblue_queue_construct` with `queue_init` on an array of `data.length` cells: `none` when the
size is refused. -/
def construct (data : List α) : Option (QueueMemory α) :=
  if maxMessageQueueItems < data.length then none else some ⟨0, 0, data.length, data⟩

/-- `queue_add`. -/
def add (queue : QueueMemory α) (value : α) : Option (ℤ × QueueMemory α) :=
  if queue.capacity ≤ queue.size then some (-1, queue)
  else do
    let pos := queue.next + queue.size
    let pos := if queue.capacity ≤ pos then pos - queue.capacity else pos
    let queue ← queue.store pos value
    pure (0, { queue with size := queue.size + 1 })

/-- `queue_remove`. -/
def remove (queue : QueueMemory α) : Option (Option α × QueueMemory α) :=
  if 0 < queue.size then do
    let value ← queue.load queue.next
    let next := queue.next + 1
    pure (some value, { queue with
      next := if queue.capacity ≤ next then next - queue.capacity else next
      size := queue.size - 1 })
  else pure (none, queue)

/-- `queue_peek`. -/
def peek (queue : QueueMemory α) : Option (Option α) :=
  if queue.size ≠ 0 then (queue.load queue.next).map some else some none

/-- `queue_size`. -/
def getSize (queue : QueueMemory α) : ℤ := queue.size

/-- A call by name. -/
def call (queue : QueueMemory α) : QueueCall α → Option (QueueResult α × QueueMemory α)
  | .add value => (queue.add value).map fun r ↦ (.code r.1, r.2)
  | .remove => queue.remove.map fun r ↦ (.item r.1, r.2)
  | .peek => queue.peek.map fun r ↦ (.item r, queue)
  | .getSize => some (.size queue.getSize, queue)

/-- A sequence of calls, with what each of them returns. -/
def calls : QueueMemory α → List (QueueCall α) → Option (List (QueueResult α) × QueueMemory α)
  | queue, [] => some ([], queue)
  | queue, c :: cs => do
    let (r, queue) ← queue.call c
    let (rs, queue) ← calls queue cs
    pure (r :: rs, queue)

/-- The elements between head and tail, the oldest first. -/
def contents (queue : QueueMemory α) : List α :=
  (List.range queue.size.toNat).filterMap fun k : ℕ ↦
    queue.load (if queue.capacity ≤ queue.next + k then queue.next + k - queue.capacity
      else queue.next + k)

/-! ### The ring buffer in memory -/

/-- The struct stores a ring buffer, in an array of exactly its capacity. -/
structure Stores (queue : QueueMemory α) (ring : MblueQueue α) : Prop where
  size : queue.size = ring.size
  next : queue.next = ring.next
  capacity : queue.capacity = ring.capacity
  length : queue.data.length = ring.capacity
  data : ∀ pos (h : pos < queue.data.length), queue.data[pos] = ring.data pos
  /-- Without cells there is no head to move. -/
  next_zero : ring.capacity = 0 → ring.next = 0

variable {queue : QueueMemory α} {ring : MblueQueue α}

theorem Stores.load (h : queue.Stores ring) {pos : ℕ} (hpos : pos < ring.capacity) :
    queue.load pos = some (ring.data pos) := by
  have hlt : pos < queue.data.length := h.length ▸ hpos
  rw [QueueMemory.load, if_pos (Int.natCast_nonneg pos), Int.toNat_natCast,
    List.getElem?_eq_getElem hlt, h.data pos hlt]

/-- The conditional subtraction on `int`s. -/
theorem pos_eq (ring : MblueQueue α) (k : ℕ) :
    (if (ring.capacity : ℤ) ≤ ring.next + k then (ring.next + k : ℤ) - ring.capacity
      else ring.next + k) = (ring.pos k : ℤ) := by
  rw [MblueQueue.pos]
  split <;> split <;> omega

theorem Stores.contents (h : queue.Stores ring) : queue.contents = ring.contents := by
  rw [QueueMemory.contents, MblueQueue.contents, h.size, Int.toNat_natCast,
    ← List.filterMap_eq_map]
  refine List.filterMap_congr fun k hk ↦ ?_
  have hlt : k < ring.capacity := (List.mem_range.1 hk).trans_le ring.size_le
  rw [h.capacity, h.next, pos_eq, h.load (MblueQueue.pos_lt hlt)]
  rfl

/-- `queue_add` on a queue with room. -/
theorem Stores.add (h : queue.Stores ring) {value : α} {ring' : MblueQueue α}
    (hadd : ring.queueAdd value = some ring') :
    ∃ queue', queue.add value = some (0, queue') ∧ queue'.Stores ring' := by
  rw [MblueQueue.queueAdd] at hadd
  split at hadd
  · cases hadd
  · next hroom =>
    obtain rfl := Option.some.inj hadd
    have hlt : ring.size < ring.capacity := Nat.lt_of_not_le hroom
    have hpos := MblueQueue.pos_lt hlt
    have hsmall : ¬ queue.capacity ≤ queue.size := by
      rw [h.capacity, h.size]
      omega
    have hin : 0 ≤ (ring.pos ring.size : ℤ) ∧ (ring.pos ring.size : ℤ) < queue.data.length :=
      ⟨Int.natCast_nonneg _, by rw [h.length]; exact Int.ofNat_lt.2 hpos⟩
    rw [QueueMemory.add, if_neg hsmall, h.capacity, h.next, h.size]
    dsimp only
    rw [pos_eq, QueueMemory.store, if_pos hin, Int.toNat_natCast]
    refine ⟨_, rfl, congrArg (· + 1) h.size, h.next, h.capacity,
      (List.length_set ..).trans h.length, fun pos hp ↦ ?_, h.next_zero⟩
    rw [List.length_set] at hp
    show (queue.data.set (ring.pos ring.size) value)[pos] =
      Function.update ring.data (ring.pos ring.size) value pos
    rw [List.getElem_set, Function.update_apply]
    -- the cell written, and the others
    by_cases heq : ring.pos ring.size = pos
    · rw [if_pos heq, if_pos heq.symm]
    · rw [if_neg heq, if_neg (Ne.symm heq), h.data pos hp]

/-- `queue_add` on a full queue. -/
theorem Stores.add_full (h : queue.Stores ring) {value : α} (hadd : ring.queueAdd value = none) :
    queue.add value = some (-1, queue) := by
  have hfull : ring.capacity ≤ ring.size := by
    rw [← MblueQueue.length_contents]
    exact MblueQueue.queueAdd_eq_none_iff.1 hadd
  have hsize : queue.capacity ≤ queue.size := by
    rw [h.capacity, h.size]
    exact Int.ofNat_le.2 hfull
  rw [QueueMemory.add, if_pos hsize]

theorem Stores.remove (h : queue.Stores ring) :
    ∃ queue', queue.remove = some (ring.queueRemove.1, queue') ∧
      queue'.Stores ring.queueRemove.2 := by
  rw [MblueQueue.queueRemove]
  split
  · next hpos =>
    have hcap : 0 < ring.capacity := hpos.trans_le ring.size_le
    have hsize : 0 < queue.size := by
      rw [h.size]
      exact Int.natCast_pos.2 hpos
    rw [QueueMemory.remove, if_pos hsize, h.next, h.load (ring.next_lt hcap)]
    refine ⟨_, rfl, ?_, ?_, h.capacity, h.length, h.data, fun hzero ↦ absurd hzero hcap.ne'⟩
    · show queue.size - 1 = ((ring.size - 1 : ℕ) : ℤ)
      rw [h.size]
      omega
    · dsimp only
      rw [h.capacity]
      split <;> split <;> omega
  · next hzero =>
    have hsize : ¬ 0 < queue.size := by
      rw [h.size]
      omega
    rw [QueueMemory.remove, if_neg hsize]
    exact ⟨_, rfl, h⟩

theorem Stores.peek (h : queue.Stores ring) : queue.peek = some ring.queuePeek := by
  rw [QueueMemory.peek, MblueQueue.queuePeek, h.size]
  by_cases hsize : ring.size = 0
  · rw [if_pos hsize, hsize]
    rfl
  · have hcap : 0 < ring.capacity := (Nat.pos_of_ne_zero hsize).trans_le ring.size_le
    rw [if_neg hsize, if_pos (Int.natCast_ne_zero.2 hsize), h.next, h.load (ring.next_lt hcap)]
    rfl

/-- A fresh queue stores an empty ring. -/
theorem stores_construct [Inhabited α] {data : List α} (h : construct data = some queue) :
    ∃ ring : MblueQueue α, queue.Stores ring ∧ ring.capacity = data.length ∧
      ring.contents = [] := by
  rw [construct] at h
  split at h
  · cases h
  · obtain rfl := Option.some.inj h
    refine ⟨⟨0, 0, data.length, fun pos ↦ data.getD pos default, Nat.zero_le _, id⟩,
      ⟨rfl, rfl, rfl, rfl, fun pos hp ↦ ?_, fun _ ↦ rfl⟩, rfl, rfl⟩
    exact (List.getD_eq_getElem _ _ hp).symm

end QueueMemory

end Mblue
