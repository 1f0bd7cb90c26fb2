import Mblue.Queue.Memory

/-!
# The queue is a bounded FIFO list

Every sequence of calls on a freshly constructed queue returns what a list of at most `capacity`
elements returns, and never leaves the array.
-/

namespace Mblue

namespace QueueMemory

variable {α : Type}

/-- A call on a FIFO list of at most `capacity` elements. -/
def fifoCall (capacity : ℕ) (xs : List α) : QueueCall α → QueueResult α × List α
  | .add value => if capacity ≤ xs.length then (.code (-1), xs) else (.code 0, xs ++ [value])
  | .remove => (.item xs.head?, xs.tail)
  | .peek => (.item xs.head?, xs)
  | .getSize => (.size xs.length, xs)

/-- A sequence of calls on a FIFO list. -/
def fifoCalls (capacity : ℕ) : List α → List (QueueCall α) → List (QueueResult α) × List α
  | xs, [] => ([], xs)
  | xs, c :: cs =>
    let r := fifoCall capacity xs c
    let rs := fifoCalls capacity r.2 cs
    (r.1 :: rs.1, rs.2)

/-- The struct is that of a queue of `capacity` cells with the elements `xs`. -/
structure Bounded (capacity : ℕ) (xs : List α) (queue : QueueMemory α) : Prop where
  capacity_eq : queue.capacity = capacity
  size : 0 ≤ queue.size ∧ queue.size ≤ capacity
  next : 0 ≤ queue.next ∧ (queue.next < capacity ∨ capacity = 0 ∧ queue.next = 0)
  contents : queue.contents = xs

variable {queue : QueueMemory α} {ring : MblueQueue α}

theorem Stores.bounded (h : queue.Stores ring) :
    queue.Bounded ring.capacity ring.contents where
  capacity_eq := h.capacity
  size := by
    rw [h.size]
    exact ⟨Int.natCast_nonneg _, Int.ofNat_le.2 ring.size_le⟩
  next := by
    rw [h.next]
    refine ⟨Int.natCast_nonneg _, ?_⟩
    rcases Nat.eq_zero_or_pos ring.capacity with hzero | hpos
    · exact .inr ⟨hzero, congrArg Nat.cast (h.next_zero hzero)⟩
    · exact .inl (Int.ofNat_lt.2 (ring.next_lt hpos))
  contents := h.contents

/-- **One call** on the struct is the call on the list. -/
theorem Stores.call (h : queue.Stores ring) (c : QueueCall α) :
    ∃ queue' ring', queue.call c = some ((fifoCall ring.capacity ring.contents c).1, queue') ∧
      queue'.Stores ring' ∧ ring'.capacity = ring.capacity ∧
        ring'.contents = (fifoCall ring.capacity ring.contents c).2 := by
  rcases c with value | _ | _ | _
  · rw [QueueMemory.call, fifoCall]
    rcases hadd : ring.queueAdd value with _ | ring'
    · rw [h.add_full hadd, if_pos (MblueQueue.queueAdd_eq_none_iff.1 hadd)]
      exact ⟨queue, ring, rfl, h, rfl, rfl⟩
    · have hroom : ¬ ring.capacity ≤ ring.contents.length := fun hfull ↦ by
        rw [MblueQueue.queueAdd_eq_none_iff.2 hfull] at hadd
        cases hadd
      obtain ⟨queue', hcall, hstores⟩ := h.add hadd
      obtain ⟨hcontents, hcap⟩ := MblueQueue.contents_queueAdd hadd
      rw [hcall, if_neg hroom]
      exact ⟨queue', ring', rfl, hstores, hcap, hcontents⟩
  · obtain ⟨queue', hcall, hstores⟩ := h.remove
    rw [QueueMemory.call, hcall, fifoCall]
    rcases hxs : ring.contents with _ | ⟨x, rest⟩
    · rw [MblueQueue.queueRemove_nil hxs] at hstores ⊢
      exact ⟨queue', ring, rfl, hstores, rfl, hxs⟩
    · obtain ⟨hfirst, hrest, hcap⟩ := MblueQueue.contents_queueRemove_cons hxs
      rw [hfirst]
      exact ⟨queue', ring.queueRemove.2, rfl, hstores, hcap, hrest⟩
  · rw [QueueMemory.call, h.peek, MblueQueue.queuePeek_eq]
    exact ⟨queue, ring, rfl, h, rfl, rfl⟩
  · rw [QueueMemory.call, getSize, h.size, fifoCall, MblueQueue.length_contents]
    exact ⟨queue, ring, rfl, h, rfl, rfl⟩

/-- **A run of calls**, by induction on the calls still to come. -/
theorem Stores.calls (h : queue.Stores ring) (cs : List (QueueCall α)) :
    ∃ queue', queue.calls cs = some ((fifoCalls ring.capacity ring.contents cs).1, queue') ∧
      queue'.Bounded ring.capacity (fifoCalls ring.capacity ring.contents cs).2 := by
  induction cs generalizing queue ring with
  | nil => exact ⟨queue, rfl, h.bounded⟩
  | cons c cs ih =>
    obtain ⟨queue₁, ring₁, hcall, hstores, hcap, hcontents⟩ := h.call c
    obtain ⟨queue₂, hcalls, hbounded⟩ := ih hstores
    rw [hcap, hcontents] at hcalls hbounded
    refine ⟨queue₂, ?_, hbounded⟩
    rw [QueueMemory.calls, hcall, Option.bind_eq_bind, Option.bind_some]
    dsimp only
    rw [hcalls]
    rfl

/-- **A queue is a bounded FIFO list**, in every sequence of calls. -/
theorem calls_construct [Inhabited α] {data : List α} (hlen : data.length ≤ maxMessageQueueItems) :
    ∃ queue, construct data = some queue ∧ ∀ cs : List (QueueCall α),
      ∃ queue', queue.calls cs = some ((fifoCalls data.length [] cs).1, queue') ∧
        queue'.Bounded data.length (fifoCalls data.length [] cs).2 := by
  have hqueue : construct data = some ⟨0, 0, data.length, data⟩ := if_neg (Nat.not_lt.2 hlen)
  obtain ⟨ring, hstores, hcap, hempty⟩ := stores_construct hqueue
  refine ⟨_, hqueue, fun cs ↦ ?_⟩
  have hcalls := hstores.calls cs
  rw [hcap, hempty] at hcalls
  exact hcalls

/-- Two cells: the third element is refused, and the head goes round. -/
theorem calls_construct_two : ∃ queue, construct [0, 0] = some queue ∧
    ∀ cs : List (QueueCall ℕ),
      ∃ queue', queue.calls cs = some ((fifoCalls 2 [] cs).1, queue') ∧
        queue'.Bounded 2 (fifoCalls 2 [] cs).2 :=
  calls_construct (show [0, 0].length ≤ maxMessageQueueItems by decide)

example : (fifoCalls 2 [] [.add 1, .add 2, .add 3, .remove, .add 4, .remove, .peek, .getSize]).1 =
    [.code 0, .code 0, .code (-1), .item (some 1), .code 0, .item (some 2), .item (some 4),
      .size 1] := by decide

end QueueMemory

end Mblue
