import Mblue.Library.LinkedRing

/-!
# Doubly linked lists

`mblue_list.h`: circular lists of `struct list_head`s, which lie inside the elements and inside the
object that owns the list. The memory gives each node its two pointers; a pointer is a node or
`NULL`, which is `none`. Nothing is checked: an operation has no result if it stores through `NULL`,
and `LIST_POISON1` and `LIST_POISON2` are `NULL`.

`ListCall` names the operations, so that a program that uses lists is a sequence of calls. The loops
`list_for_each` and `list_for_each_safe` run with fuel. Their body may change anything, the pointers
too, and may break off.
-/

namespace Mblue

open LinkedRing

variable {α : Type} [DecidableEq α]

/-! ### Loads and stores -/

/-- `p->next = q`. -/
def storeNext (p q : Option α) (m : Links α) : Option (Links α) :=
  p.map fun a ↦ { m with next := Function.update m.next a q }

/-- `p->prev = q`. -/
def storePrev (p q : Option α) (m : Links α) : Option (Links α) :=
  p.map fun a ↦ { m with prev := Function.update m.prev a q }

/-! ### The operations -/

/-- `INIT_LIST_HEAD`. -/
def initListHead (list : α) (m : Links α) : Option (Links α) := do
  let m ← storeNext list list m
  storePrev list list m

/-- `__list_add`. -/
def listAddBetween (new : α) (prev next : Option α) (m : Links α) : Option (Links α) := do
  let m ← storePrev next new m
  let m ← storeNext new next m
  let m ← storePrev new prev m
  storeNext prev new m

/-- `list_add`. -/
def listAdd (new head : α) (m : Links α) : Option (Links α) :=
  listAddBetween new head (m.next head) m

/-- `list_add_tail`. -/
def listAddTail (new head : α) (m : Links α) : Option (Links α) :=
  listAddBetween new (m.prev head) head m

/-- `__list_del`. -/
def listDelBetween (prev next : Option α) (m : Links α) : Option (Links α) := do
  let m ← storePrev next prev m
  storeNext prev next m

/-- `list_del`. -/
def listDel (entry : α) (m : Links α) : Option (Links α) := do
  let m ← listDelBetween (m.prev entry) (m.next entry) m
  let m ← storeNext entry none m
  storePrev entry none m

/-- `list_replace`. -/
def listReplace (old new : α) (m : Links α) : Option (Links α) := do
  let m ← storeNext new (m.next old) m
  let m ← storePrev (m.next new) new m
  let m ← storePrev new (m.prev old) m
  storeNext (m.prev new) new m

/-- `list_replace_init`. -/
def listReplaceInit (old new : α) (m : Links α) : Option (Links α) := do
  let m ← listReplace old new m
  initListHead old m

/-- `list_del_init`. -/
def listDelInit (entry : α) (m : Links α) : Option (Links α) := do
  let m ← listDelBetween (m.prev entry) (m.next entry) m
  initListHead entry m

/-- `list_move`. -/
def listMove (list head : α) (m : Links α) : Option (Links α) := do
  let m ← listDelBetween (m.prev list) (m.next list) m
  listAdd list head m

/-- `list_move_tail`. -/
def listMoveTail (list head : α) (m : Links α) : Option (Links α) := do
  let m ← listDelBetween (m.prev list) (m.next list) m
  listAddTail list head m

/-- `list_is_last`. -/
def listIsLast (list head : α) (m : Links α) : Bool := m.next list == some head

/-- `list_empty`. -/
def listEmpty (head : α) (m : Links α) : Bool := m.next head == some head

/-- `list_empty_careful`. -/
def listEmptyCareful (head : α) (m : Links α) : Bool :=
  let next := m.next head
  next == some head && next == m.prev head

/-- `list_is_singular`. -/
def listIsSingular (head : α) (m : Links α) : Bool :=
  !listEmpty head m && m.next head == m.prev head

/-- `__list_cut_position`. -/
def listCutBetween (list head entry : α) (m : Links α) : Option (Links α) := do
  let newFirst := m.next entry
  let m ← storeNext list (m.next head) m
  let m ← storePrev (m.next list) list m
  let m ← storePrev list entry m
  let m ← storeNext entry list m
  let m ← storeNext head newFirst m
  storePrev newFirst head m

/-- `list_cut_position`. -/
def listCutPosition (list head entry : α) (m : Links α) : Option (Links α) :=
  if listEmpty head m then some m
  else if listIsSingular head m && (m.next head != some entry && head != entry) then some m
  else if entry = head then initListHead list m
  else listCutBetween list head entry m

/-- `__list_splice`. -/
def listSpliceBetween (list : α) (prev next : Option α) (m : Links α) : Option (Links α) := do
  let first := m.next list
  let last := m.prev list
  let m ← storePrev first prev m
  let m ← storeNext prev first m
  let m ← storeNext last next m
  storePrev next last m

/-- `list_splice`. -/
def listSplice (list head : α) (m : Links α) : Option (Links α) :=
  if listEmpty list m then some m else listSpliceBetween list head (m.next head) m

/-- `list_splice_tail`. -/
def listSpliceTail (list head : α) (m : Links α) : Option (Links α) :=
  if listEmpty list m then some m else listSpliceBetween list (m.prev head) head m

/-- `list_splice_init`. -/
def listSpliceInit (list head : α) (m : Links α) : Option (Links α) :=
  if listEmpty list m then some m
  else do
    let m ← listSpliceBetween list head (m.next head) m
    initListHead list m

/-- `list_splice_tail_init`. -/
def listSpliceTailInit (list head : α) (m : Links α) : Option (Links α) :=
  if listEmpty list m then some m
  else do
    let m ← listSpliceBetween list (m.prev head) head m
    initListHead list m

/-! ### Sequences of calls -/

/-- The operations by name. -/
inductive ListCall (α : Type)
  | init (list : α)
  | add (new head : α)
  | addTail (new head : α)
  | del (entry : α)
  | delInit (entry : α)
  | replace (old new : α)
  | replaceInit (old new : α)
  | move (list head : α)
  | moveTail (list head : α)
  | cutPosition (list head entry : α)
  | splice (list head : α)
  | spliceTail (list head : α)
  | spliceInit (list head : α)
  | spliceTailInit (list head : α)
  | isLast (list head : α)
  | empty (head : α)
  | emptyCareful (head : α)
  | isSingular (head : α)
  deriving DecidableEq, Repr

/-- A call: what it returns, if it returns something, and the pointers after it. -/
def ListCall.perform (m : Links α) : ListCall α → Option (Option Bool × Links α)
  | init list => (initListHead list m).map (none, ·)
  | add new head => (listAdd new head m).map (none, ·)
  | addTail new head => (listAddTail new head m).map (none, ·)
  | del entry => (listDel entry m).map (none, ·)
  | delInit entry => (listDelInit entry m).map (none, ·)
  | replace old new => (listReplace old new m).map (none, ·)
  | replaceInit old new => (listReplaceInit old new m).map (none, ·)
  | move list head => (listMove list head m).map (none, ·)
  | moveTail list head => (listMoveTail list head m).map (none, ·)
  | cutPosition list head entry => (listCutPosition list head entry m).map (none, ·)
  | splice list head => (listSplice list head m).map (none, ·)
  | spliceTail list head => (listSpliceTail list head m).map (none, ·)
  | spliceInit list head => (listSpliceInit list head m).map (none, ·)
  | spliceTailInit list head => (listSpliceTailInit list head m).map (none, ·)
  | isLast list head => some (some (listIsLast list head m), m)
  | empty head => some (some (listEmpty head m), m)
  | emptyCareful head => some (some (listEmptyCareful head m), m)
  | isSingular head => some (some (listIsSingular head m), m)

/-- A sequence of calls, with what each of them returns. -/
def performCalls : Links α → List (ListCall α) → Option (List (Option Bool) × Links α)
  | m, [] => some ([], m)
  | m, c :: cs => do
    let (r, m) ← c.perform m
    let (rs, m) ← performCalls m cs
    pure (r :: rs, m)

/-! ### The loops -/

section
variable {σ : Type} (links : σ → Links α) (body : α → σ → Option (σ × Bool)) (head : α)

/-- The rounds of `list_for_each`. The body says whether the loop goes on; `prefetch(pos->next)`
follows `pos` before it is compared with the head. -/
def listForEachFrom : ℕ → Option α → σ → Option σ
  | 0, _, _ => none
  | _ + 1, none, _ => none
  | fuel + 1, some pos, s =>
    if pos = head then some s
    else do
      let (s, goOn) ← body pos s
      if goOn then listForEachFrom fuel ((links s).next pos) s else some s

theorem listForEachFrom_null (fuel : ℕ) (s : σ) :
    listForEachFrom links body head fuel none s = none := by
  cases fuel <;> rfl

/-- `list_for_each`. -/
def listForEach (fuel : ℕ) (s : σ) : Option σ :=
  listForEachFrom links body head fuel ((links s).next head) s

/-- The rounds of `list_for_each_safe`: the successor `n` of `pos` is read before the body runs. -/
def listForEachSafeFrom : ℕ → α → Option α → σ → Option σ
  | 0, _, _, _ => none
  | fuel + 1, pos, n, s =>
    if pos = head then some s
    else do
      let (s, goOn) ← body pos s
      if goOn then do
        let pos ← n
        listForEachSafeFrom fuel pos ((links s).next pos) s
      else some s

/-- `list_for_each_safe`. -/
def listForEachSafe (fuel : ℕ) (s : σ) : Option σ := do
  let pos ← (links s).next head
  listForEachSafeFrom links body head fuel pos ((links s).next pos) s

end

/-! ### What the pointers are made to say -/

variable {m : Links α} {list new old head entry p n : α}

/-- Between two nodes, `__list_add` makes two joints. -/
theorem listAddBetween_eq : listAddBetween new (some p) (some n) m =
    some ((m.join new n).join p new) := rfl

theorem listDelBetween_eq : listDelBetween (some p) (some n) m = some (m.join p n) := rfl

theorem listDel_eq (hp : m.prev entry = some p) (hn : m.next entry = some n) :
    listDel entry m = some ((m.join p n).clear entry) := by
  rw [listDel, hp, hn, listDelBetween_eq]
  rfl

theorem listDelInit_eq (hp : m.prev entry = some p) (hn : m.next entry = some n) :
    listDelInit entry m = some ((m.join p n).join entry entry) := by
  rw [listDelInit, hp, hn, listDelBetween_eq]
  rfl

/-- The second joint of `list_replace` is made with what the first one left of `old->prev`. -/
theorem listReplace_eq (hn : m.next old = some n) (hp : (m.join new n).prev old = some p) :
    listReplace old new m = some ((m.join new n).join p new) := by
  have hnew : (m.join new n).prev old = Function.update m.prev n (some new) old := rfl
  rw [hnew] at hp
  simp only [listReplace, storeNext, storePrev, hn, Option.map_some, Option.bind_eq_bind,
    Option.bind_some, Function.update_self, hp]
  rfl

theorem listCutBetween_eq {f : α} (hf : m.next head = some f) (hn : m.next entry = some n) :
    listCutBetween list head entry m =
      some (((m.join list f).join entry list).join head n) := by
  simp only [listCutBetween, storeNext, storePrev, hf, hn, Option.map_some, Option.bind_eq_bind,
    Option.bind_some, Function.update_self]
  rfl

theorem listSpliceBetween_eq {first last : α} (hfirst : m.next list = some first)
    (hlast : m.prev list = some last) :
    listSpliceBetween list (some p) (some n) m = some ((m.join p first).join last n) := by
  rw [listSpliceBetween, hfirst, hlast]
  rfl

end Mblue
