import Mathlib

/-!
# Message queues

The ring buffer of `mblue_queue.c`. Positions are computed with one conditional subtraction instead
of a remainder, which is right because `next` is below the capacity and `size` not above it; the two
facts are fields of the structure, so every operation proves them once and no later proof has to.

`contents` reads the queue as a list, the oldest element first, and the operations are what one
expects of lists: `contents_queueAdd`, `contents_queueRemove`. The systems that only need a queue's
contents, such as `Shared.mq` in `System/State.lean`, use the list.
-/

namespace Mblue

/-- `MAX_MESSAGE_QUEUE_ITEMS`. -/
def maxMessageQueueItems : ℕ := 128

/-- `struct mblue_queue`. -/
structure MblueQueue (α : Type) where
  size : ℕ
  next : ℕ
  capacity : ℕ
  data : ℕ → α
  size_le : size ≤ capacity
  next_lt : 0 < capacity → next < capacity

namespace MblueQueue

variable {α : Type} (queue : MblueQueue α)

/-- The position `k` elements behind the first, as `queue_add` computes it. -/
def pos (k : ℕ) : ℕ :=
  if queue.capacity ≤ queue.next + k then queue.next + k - queue.capacity else queue.next + k

/-- What is queued, the oldest first. -/
def contents : List α := (List.range queue.size).map fun k ↦ queue.data (queue.pos k)

/-- `queue_init` on an array that holds `data`: `none` when the size is refused. -/
def queueInit (data : ℕ → α) (size : ℕ) : Option (MblueQueue α) :=
  if maxMessageQueueItems < size then none else some ⟨0, 0, size, data, Nat.zero_le _, id⟩

/-- `queue_add`; `none` is the error `-1`, which leaves the queue as it is. -/
def queueAdd (value : α) : Option (MblueQueue α) :=
  if h : queue.capacity ≤ queue.size then none
  else some { queue with
    data := Function.update queue.data (queue.pos queue.size) value
    size := queue.size + 1
    size_le := Nat.lt_of_not_le h }

/-- `queue_remove`: the oldest element, `none` standing for `NULL`. -/
def queueRemove : Option α × MblueQueue α :=
  if h : 0 < queue.size then
    (some (queue.data queue.next), { queue with
      next := if queue.capacity ≤ queue.next + 1 then queue.next + 1 - queue.capacity
        else queue.next + 1
      size := queue.size - 1
      size_le := (Nat.sub_le _ _).trans queue.size_le
      next_lt := fun hcap ↦ by
        have hnext := queue.next_lt hcap
        split <;> omega })
  else (none, queue)

/-- `queue_peek`. -/
def queuePeek : Option α := if queue.size = 0 then none else some (queue.data queue.next)

variable {queue}

@[simp] theorem length_contents : queue.contents.length = queue.size := by
  rw [contents, List.length_map, List.length_range]

/-- No position outside the array is touched. -/
theorem pos_lt {k : ℕ} (hk : k < queue.capacity) : queue.pos k < queue.capacity := by
  have hnext := queue.next_lt (Nat.zero_lt_of_lt hk)
  unfold pos
  split <;> omega

/-- Within one turn different distances are different positions. -/
theorem pos_ne {j k : ℕ} (hjk : j < k) (hk : k < queue.capacity) : queue.pos j ≠ queue.pos k := by
  have hnext := queue.next_lt (Nat.zero_lt_of_lt hk)
  unfold pos
  split <;> split <;> omega

@[simp] theorem contents_queueInit {data : ℕ → α} {size : ℕ} {q : MblueQueue α}
    (h : queueInit data size = some q) : q.contents = [] := by
  unfold queueInit at h
  split at h
  · cases h
  · cases h
    rfl

theorem queueAdd_eq_none_iff {value : α} :
    queue.queueAdd value = none ↔ queue.capacity ≤ queue.contents.length := by
  rw [length_contents]
  unfold queueAdd
  split
  · next h => simp only [h]
  · next h => simp only [h, reduceCtorEq]

/-- **Adding appends.** -/
theorem contents_queueAdd {value : α} {q : MblueQueue α} (h : queue.queueAdd value = some q) :
    q.contents = queue.contents ++ [value] ∧ q.capacity = queue.capacity := by
  unfold queueAdd at h
  split at h
  · cases h
  · next hroom =>
    cases h
    refine ⟨?_, rfl⟩
    have hlt : queue.size < queue.capacity := Nat.lt_of_not_le hroom
    unfold contents
    dsimp only
    rw [List.range_succ, List.map_append]
    congr 1
    · refine List.map_congr_left fun k hk ↦ ?_
      exact Function.update_of_ne (pos_ne (List.mem_range.1 hk) hlt) _ _
    · rw [List.map_singleton]
      exact congrArg (fun x ↦ [x]) (Function.update_self _ _ _)

/-- Stepping over the first element shifts the positions by one. -/
theorem pos_step {q : MblueQueue α} {k : ℕ} (hk : k + 1 < queue.capacity)
    (hcap : q.capacity = queue.capacity)
    (hnext : q.next = if queue.capacity ≤ queue.next + 1 then queue.next + 1 - queue.capacity
      else queue.next + 1) : q.pos k = queue.pos (k + 1) := by
  have hlt := queue.next_lt (Nat.zero_lt_of_lt hk)
  unfold pos
  rw [hcap, hnext]
  split <;> split <;> split <;> omega

/-- **Removing takes the first.** -/
theorem contents_queueRemove_cons {x : α} {rest : List α} (h : queue.contents = x :: rest) :
    queue.queueRemove.1 = some x ∧ queue.queueRemove.2.contents = rest ∧
      queue.queueRemove.2.capacity = queue.capacity := by
  have hsize : queue.size = rest.length + 1 := by
    rw [← length_contents, h, List.length_cons]
  have hpos : 0 < queue.size := hsize ▸ Nat.succ_pos _
  have hcap : 0 < queue.capacity := hpos.trans_le queue.size_le
  have hfirst : queue.pos 0 = queue.next := by
    have hnext := queue.next_lt hcap
    unfold pos
    rw [if_neg (by omega), Nat.add_zero]
  unfold contents at h
  rw [hsize, List.range_succ_eq_map, List.map_cons, hfirst] at h
  obtain ⟨hx, hrest⟩ := List.cons.inj h
  unfold queueRemove
  rw [dif_pos hpos]
  refine ⟨congrArg some hx, ?_, rfl⟩
  have hlength : rest.length = queue.size - 1 := by omega
  rw [← hrest, hlength, List.map_map]
  unfold contents
  refine List.map_congr_left fun k hk ↦ congrArg queue.data (pos_step ?_ rfl rfl)
  have hle := queue.size_le
  have hk : k < queue.size - 1 := List.mem_range.1 hk
  omega

theorem queueRemove_nil (h : queue.contents = []) : queue.queueRemove = (none, queue) := by
  have hsize : queue.size = 0 := by
    rw [← length_contents, h, List.length_nil]
  unfold queueRemove
  rw [dif_neg (by omega)]

theorem queuePeek_eq : queue.queuePeek = queue.contents.head? := by
  unfold queuePeek
  cases h : queue.contents with
  | nil =>
    have hsize : queue.size = 0 := by
      rw [← length_contents, h, List.length_nil]
    rw [if_pos hsize, List.head?_nil]
  | cons x rest =>
    have hremove := (contents_queueRemove_cons h).1
    have hsize : 0 < queue.size := by
      rw [← length_contents, h]
      exact Nat.succ_pos _
    unfold queueRemove at hremove
    rw [dif_pos hsize] at hremove
    rw [if_neg (by omega), List.head?_cons]
    exact hremove

end MblueQueue

end Mblue
