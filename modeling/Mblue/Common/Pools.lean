import Mblue.Common.ListRuns
import Mblue.Message.Basic
import Mblue.Events.Timer

/-!
# The pools of messages and timers

`mblue_message.c` and `mblue_timer.c` keep the free elements of a static array on a list of
`mblue_list.h`. A `Pool` is the memory of such a list: the pointers of its head and of the member
`list` of each element, and the member `count`, which the timers' pool has but does not use.

Both modules do the same to the list, and differ in how they ask whether an element is left: the
messages are counted, the timers' list is looked at. An element that is handed out is wiped, its
pointers too.
-/

namespace Mblue

open LinkedRing

/-- The nodes of a pool: the head of the list, and the member `list` of each element. -/
inductive PoolNode (ι : Type)
  | head
  | element (i : ι)
  deriving DecidableEq, Repr

/-- `struct mblue_message_list` and `struct timer_list`. -/
structure Pool (ι : Type) where
  count : ℤ
  links : Links (PoolNode ι)

namespace Pool

variable {ι : Type} [DecidableEq ι]

/-- An empty list, to which the elements are added in turn. -/
def fill (elements : List ι) (links : Links (PoolNode ι)) : Option (Links (PoolNode ι)) := do
  let links ← initListHead .head links
  elements.foldlM (fun links i ↦ listAddTail (.element i) .head links) links

/-- The first node of the list is taken out. That it lies in an element is not checked. -/
def takeFirst (links : Links (PoolNode ι)) : Option (ι × Links (PoolNode ι)) :=
  match links.next .head with
  | some (.element i) => (listDel (.element i) links).map (i, ·)
  | some .head => none
  | none => none

/-- `memset` of an element. -/
def wipe (list : Pool ι) (i : ι) : Pool ι := { list with links := list.links.clear (.element i) }

/-! ### Messages -/

/-- `mblue_message_init`. -/
def mblueMessageInit (list : Pool MsgId) : Option (Pool MsgId) := do
  let links ← fill (List.finRange mblueMaxMessageNum) list.links
  pure ⟨mblueMaxMessageNum, links⟩

/-- `mblue_message_get`. -/
def mblueMessageGet (list : Pool MsgId) : Option (Option MsgId × Pool MsgId) :=
  if list.count ≠ 0 then
    (takeFirst list.links).map fun r ↦ (some r.1, ⟨list.count - 1, r.2⟩)
  else some (none, list)

/-- `mblue_message_put`. -/
def mblueMessagePut (list : Pool MsgId) (msg : MsgId) : Option (Pool MsgId) :=
  (listAddTail (.element msg) .head list.links).map (⟨list.count + 1, ·⟩)

/-- `mblue_message_alloc`. -/
def mblueMessageAlloc (list : Pool MsgId) : Option (Option MsgId × Pool MsgId) :=
  (mblueMessageGet list).map fun r ↦ (r.1, r.1.elim r.2 r.2.wipe)

/-! ### Timers -/

/-- `timer_list_init`. -/
def timerListInit (list : Pool TimerId) : Option (Pool TimerId) := do
  let links ← fill (List.finRange maxTimerNum) list.links
  pure { list with links := links }

/-- `timer_get`. -/
def timerGet (list : Pool TimerId) : Option (Option TimerId × Pool TimerId) :=
  if !listEmpty .head list.links then
    (takeFirst list.links).map fun r ↦ (some r.1, { list with links := r.2 })
  else some (none, list)

/-- `timer_put`. -/
def timerPut (list : Pool TimerId) (timer : TimerId) : Option (Pool TimerId) :=
  (listAddTail (.element timer) .head list.links).map ({ list with links := · })

/-- `mblue_timer_get`, without the functions it puts into the timer. -/
def timerAlloc (list : Pool TimerId) : Option (Option TimerId × Pool TimerId) :=
  (timerGet list).map fun r ↦ (r.1, r.1.elim r.2 r.2.wipe)

/-! ### Sequences of calls -/

/-- The calls of a pool. -/
inductive Call (ι : Type)
  | get
  | put (i : ι)
  deriving DecidableEq, Repr

/-- A call: the element handed out or `NULL`. A `put` hands out nothing. -/
def call (get : Pool ι → Option (Option ι × Pool ι)) (put : Pool ι → ι → Option (Pool ι))
    (list : Pool ι) : Call ι → Option (Option ι × Pool ι)
  | .get => get list
  | .put i => (put list i).map (none, ·)

/-- A sequence of calls, with what each of them hands out. -/
def calls (get : Pool ι → Option (Option ι × Pool ι)) (put : Pool ι → ι → Option (Pool ι)) :
    Pool ι → List (Call ι) → Option (List (Option ι) × Pool ι)
  | list, [] => some ([], list)
  | list, c :: cs => do
    let (r, list) ← call get put list c
    let (rs, list) ← calls get put list cs
    pure (r :: rs, list)

end Pool

/-! ### What a pool is for -/

/-- The free elements after a call, and what it hands out: the element that is free the longest, if
one is. An element may be given back that is not free. -/
inductive FreeStep {ι : Type} (free : List ι) : Pool.Call ι → Option ι → List ι → Prop
  | get {i : ι} {rest : List ι} (h : free = i :: rest) : FreeStep free .get (some i) rest
  | empty (h : free = []) : FreeStep free .get none []
  | put {i : ι} (h : i ∉ free) : FreeStep free (.put i) none (free ++ [i])

/-- A sequence of calls on the free elements. -/
inductive FreeSteps {ι : Type} : List ι → List (Pool.Call ι) → List (Option ι) → List ι → Prop
  | nil {free : List ι} : FreeSteps free [] [] free
  | cons {free free' free'' : List ι} {c : Pool.Call ι} {r : Option ι} {cs : List (Pool.Call ι)}
      {rs : List (Option ι)} (h : FreeStep free c r free') (hs : FreeSteps free' cs rs free'') :
      FreeSteps free (c :: cs) (r :: rs) free''

end Mblue
