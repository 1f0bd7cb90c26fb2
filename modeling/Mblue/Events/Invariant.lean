import Mblue.Events.Changes

/-!
# The invariants of the event queue

The pending events are stored three times: as a bitmap, as a list of elements, and as the timers
these own. `Pending` relates the bitmap to the list. That no two types have a bit in common is part
of it; without this, clearing the bits of one type would clear bits of another one that stays.
`Ticking` relates the list to the timer pool: a timer is free or owned by one element, and whatever
is armed belongs to an element that is queued.

Both are kept by every `Change`, whatever is removed.
-/

namespace Mblue

open scoped List

namespace EventQueue

/-- The timers that elements own. -/
def owned (l : List Queued) : List TimerId := l.filterMap fun e ↦ e.tick

theorem owned_cons_of_none {ele : Queued} (h : ele.tick = none) (l : List Queued) :
    owned (ele :: l) = owned l :=
  List.filterMap_cons_none h

theorem owned_cons_of_some {ele : Queued} {timer : TimerId} (h : ele.tick = some timer)
    (l : List Queued) : owned (ele :: l) = timer :: owned l :=
  List.filterMap_cons_some h

theorem owned_append (l m : List Queued) : owned (l ++ m) = owned l ++ owned m :=
  List.filterMap_append

/-- The bitmap, the list and the identities of the elements agree. -/
structure Pending (q : EventQueue) : Prop where
  eventBm : q.eventBm = orAll (q.queue.map (·.type))
  disjoint : q.queue.Pairwise fun a b ↦ DisjointMasks a.type b.type
  serials : q.queue.Pairwise fun a b ↦ a.serial ≠ b.serial
  serial_lt : ∀ e ∈ q.queue, e.serial < q.serials
  addrs : q.queue.Pairwise fun a b ↦ a.addr ≠ b.addr
  addr : ∀ e ∈ q.queue, pbPayload e.addr = true

/-- The elements and the timers agree. -/
structure Ticking (q : EventQueue) : Prop where
  tick_eq_none_iff : ∀ e ∈ q.queue, e.tick = none ↔ e.Untimed
  pool : owned q.queue ++ q.timers.timerLists ~ List.finRange maxTimerNum
  obj : ∀ timer pt, q.timers.obj timer = some pt →
    ∃ e ∈ q.queue, e.tick = some timer ∧ e.serial = pt.param

/-- **The invariant of the event queue.** -/
structure Sound (q : EventQueue) : Prop extends Pending q, Ticking q

variable {q q' : EventQueue} {a b ele : Queued} {allowed : Permit}

/-! ### Identities -/

/-- A symmetric relation between any two elements at different places. -/
theorem rel_of_pairwise {r : Queued → Queued → Prop} {l : List Queued} (h : l.Pairwise r)
    (hsymm : ∀ a b, r a b → r b a) (ha : a ∈ l) (hb : b ∈ l) (hne : a ≠ b) : r a b :=
  have : Std.Symm r := ⟨hsymm⟩
  h.forall ha hb hne

namespace Pending

theorem eq_of_serial_eq (h : Pending q) (ha : a ∈ q.queue) (hb : b ∈ q.queue)
    (hab : a.serial = b.serial) : a = b := by
  by_contra hne
  exact rel_of_pairwise h.serials (fun _ _ ↦ Ne.symm) ha hb hne hab

theorem eq_of_addr_eq (h : Pending q) (ha : a ∈ q.queue) (hb : b ∈ q.queue)
    (hab : a.addr = b.addr) : a = b := by
  by_contra hne
  exact rel_of_pairwise h.addrs (fun _ _ ↦ Ne.symm) ha hb hne hab

/-- Two queued elements of one type, other than the empty one, are the same. -/
theorem eq_of_type_eq (h : Pending q) (ha : a ∈ q.queue) (hb : b ∈ q.queue)
    (hab : a.type = b.type) (hne : a.type ≠ 0) : a = b := by
  by_contra hdiff
  have hdisj : DisjointMasks a.type b.type :=
    rel_of_pairwise h.disjoint (fun _ _ ↦ DisjointMasks.symm) ha hb hdiff
  rw [← hab] at hdisj
  exact hne hdisj.eq_zero

theorem nodup (h : Pending q) : q.queue.Nodup :=
  h.serials.imp fun hne heq ↦ hne (congrArg Queued.serial heq)

/-- The bitmap misses a type exactly when all queued types do. -/
theorem eventBm_and_eq_zero_iff (h : Pending q) {type : Word} :
    q.eventBm &&& type = 0 ↔ ∀ e ∈ q.queue, DisjointMasks e.type type := by
  rw [h.eventBm, orAll_and_eq_zero_iff, List.forall_mem_map]

/-- The type of a queued element is pending. -/
theorem eventBm_and_ne_zero (h : Pending q) (hmem : ele ∈ q.queue) (hne : ele.type ≠ 0) :
    q.eventBm &&& ele.type ≠ 0 :=
  fun hzero ↦ hne (h.eventBm_and_eq_zero_iff.1 hzero ele hmem).eq_zero

/-- A pointer to a queued element leads to it. -/
theorem deref_eq_ok (h : Pending q) (hmem : ele ∈ q.queue) : q.deref ele.serial = .ok ele := by
  cases hderef : q.deref ele.serial with
  | error fault => exact absurd rfl ((deref_eq_error_iff.1 hderef).2 ele hmem)
  | ok found =>
    obtain ⟨hfound, hserial⟩ := EventQueue.deref_eq_ok hderef
    rw [h.eq_of_serial_eq hfound hmem hserial]

/-- Searching a queued type other than the empty one finds its element. -/
theorem find?_type (h : Pending q) (hmem : ele ∈ q.queue) (hne : ele.type ≠ 0) :
    q.queue.find? (·.type == ele.type) = some ele := by
  cases hfind : q.queue.find? (·.type == ele.type) with
  | none => simpa using List.find?_eq_none.1 hfind ele hmem
  | some found =>
    have htype : found.type = ele.type := by simpa using List.find?_some hfind
    rw [h.eq_of_type_eq (List.mem_of_find?_eq_some hfind) hmem htype (htype ▸ hne)]

/-- Searching the address of a queued element finds it. -/
theorem find?_addr (h : Pending q) (hmem : ele ∈ q.queue) :
    q.queue.find? (·.addr == ele.addr) = some ele := by
  cases hfind : q.queue.find? (·.addr == ele.addr) with
  | none => simpa using List.find?_eq_none.1 hfind ele hmem
  | some found =>
    have haddr : found.addr = ele.addr := by simpa using List.find?_some hfind
    rw [h.eq_of_addr_eq (List.mem_of_find?_eq_some hfind) hmem haddr]

end Pending

/-! ### The bitmap and the list -/

/-- What remains after a removal is what the element was different from. -/
theorem Pending.mem_erase_iff (h : Pending q) :
    a ∈ q.queue.erase ele ↔ a ≠ ele ∧ a ∈ q.queue := h.nodup.mem_erase_iff

theorem Pending.remove (h : Pending q) (hmem : ele ∈ q.queue) : Pending (q.remove ele) where
  eventBm := by
    have hperm : (q.queue.map (·.type)).Perm (ele.type :: (q.queue.erase ele).map (·.type)) :=
      (List.perm_cons_erase hmem).map _
    have hdisj : ∀ m ∈ (q.queue.erase ele).map (·.type), DisjointMasks m ele.type := by
      rw [List.forall_mem_map]
      intro e he
      obtain ⟨hne, he⟩ := h.mem_erase_iff.1 he
      exact rel_of_pairwise h.disjoint (fun _ _ ↦ DisjointMasks.symm) he hmem hne
    rw [eventBm_remove, queue_remove, h.eventBm]
    exact orAll_and_not hperm hdisj
  disjoint := h.disjoint.sublist List.erase_sublist
  serials := h.serials.sublist List.erase_sublist
  serial_lt e he := h.serial_lt e (List.mem_of_mem_erase he)
  addrs := h.addrs.sublist List.erase_sublist
  addr e he := h.addr e (List.mem_of_mem_erase he)

/-- A relation that holds between all old elements and the new one holds in the longer queue. -/
theorem pairwise_concat {r : Queued → Queued → Prop} {l : List Queued} (h : l.Pairwise r)
    (hnew : ∀ e ∈ l, r e ele) : (l ++ [ele]).Pairwise r := by
  rw [List.pairwise_append]
  refine ⟨h, List.pairwise_singleton _ _, fun e he e' he' ↦ ?_⟩
  rw [List.mem_singleton.1 he']
  exact hnew e he

theorem Pending.link (h : Pending q) {ts : Timers} (hserial : ele.serial = q.serials)
    (hbm : q.eventBm &&& ele.type = 0) (haddr : pbPayload ele.addr = true)
    (hfresh : ∀ e ∈ q.queue, e.addr ≠ ele.addr) : Pending (q.link ts ele) where
  eventBm := by
    change q.eventBm ||| ele.type = orAll ((q.queue ++ [ele]).map (·.type))
    rw [List.map_append, orAll_append, ← h.eventBm]
    simp
  disjoint := pairwise_concat h.disjoint (h.eventBm_and_eq_zero_iff.1 hbm)
  serials := pairwise_concat h.serials fun e he ↦ by
    rw [hserial]
    exact (h.serial_lt e he).ne
  serial_lt := by
    intro e he
    change e.serial < q.serials + 1
    rcases List.mem_append.1 he with hold | hnew
    · exact Nat.lt_succ_of_lt (h.serial_lt e hold)
    · rw [List.mem_singleton.1 hnew, hserial]
      exact Nat.lt_succ_self _
  addrs := pairwise_concat h.addrs hfresh
  addr := by
    intro e he
    rcases List.mem_append.1 he with hold | hnew
    · exact h.addr e hold
    · rwa [List.mem_singleton.1 hnew]

/-! ### The elements and the timers -/

theorem Ticking.remove (h : Ticking q) (hpending : Pending q) (hmem : ele ∈ q.queue) :
    Ticking (q.remove ele) where
  tick_eq_none_iff e he := h.tick_eq_none_iff e (List.mem_of_mem_erase he)
  pool := by
    have hperm : owned q.queue ~ owned (ele :: q.queue.erase ele) :=
      (List.perm_cons_erase hmem).filterMap _
    rw [queue_remove, timers_remove]
    cases htick : ele.tick with
    | none =>
      rw [owned_cons_of_none htick] at hperm
      exact (hperm.symm.append_right _).trans h.pool
    | some timer =>
      rw [owned_cons_of_some htick] at hperm
      rw [Timers.timerLists_freeTimer]
      -- The timer moves from the owned ones to the end of the free ones.
      calc owned (q.queue.erase ele) ++ (q.timers.timerLists ++ [timer])
          = (owned (q.queue.erase ele) ++ q.timers.timerLists) ++ [timer] :=
            (List.append_assoc _ _ _).symm
        _ ~ timer :: (owned (q.queue.erase ele) ++ q.timers.timerLists) :=
            List.perm_append_singleton _ _
        _ ~ owned q.queue ++ q.timers.timerLists := hperm.symm.append_right _
        _ ~ List.finRange maxTimerNum := h.pool
  obj := by
    intro timer pt hobj
    rw [timers_remove] at hobj
    have howner : ele.tick ≠ some timer ∧ q.timers.obj timer = some pt := by
      cases htick : ele.tick with
      | none =>
        rw [htick] at hobj
        exact ⟨by simp, hobj⟩
      | some own =>
        simp only [htick, Timers.obj_freeTimer] at hobj
        have hne : timer ≠ own := by
          rintro rfl
          simp at hobj
        rw [Function.update_of_ne hne] at hobj
        exact ⟨fun heq ↦ hne (Option.some.inj heq).symm, hobj⟩
    obtain ⟨e, he, htick, hparam⟩ := h.obj timer pt howner.2
    refine ⟨e, hpending.mem_erase_iff.2 ⟨?_, he⟩, htick, hparam⟩
    rintro rfl
    exact howner.1 htick

theorem Ticking.link (h : Ticking q) {ts : Timers} {platform : PlatformSupply} {ele₀ : Queued}
    (htick : ele₀.tick = none) (harm : ArmOutcome q.timers ele₀ platform ts ele) :
    Ticking (q.link ts ele) := by
  have hold : ∀ {timer : TimerId} {pt : PosixTimer}, q.timers.obj timer = some pt →
      ∃ e ∈ q.queue ++ [ele], e.tick = some timer ∧ e.serial = pt.param := by
    intro timer pt hobj
    obtain ⟨e, he, howned⟩ := h.obj timer pt hobj
    exact ⟨e, List.mem_append_left _ he, howned⟩
  have hticks (hnew : ele.tick = none ↔ ele.Untimed) :
      ∀ e ∈ q.queue ++ [ele], e.tick = none ↔ e.Untimed := by
    intro e he
    rcases List.mem_append.1 he with hmem | hmem
    · exact h.tick_eq_none_iff e hmem
    · rwa [List.mem_singleton.1 hmem]
  cases harm with
  | untimed hperiod =>
    refine ⟨hticks (iff_of_true htick hperiod), ?_, fun _ _ ↦ hold⟩
    change owned (q.queue ++ [ele]) ++ q.timers.timerLists ~ _
    rw [owned_append, owned_cons_of_none htick]
    exact (List.append_nil _).symm ▸ h.pool
  | @uncreated timer rest hperiod hfree hcreate =>
    have hpool := h.pool
    rw [hfree] at hpool
    refine ⟨hticks (iff_of_false (by simp) hperiod), ?_, ?_⟩
    · change owned (q.queue ++ [{ ele₀ with tick := some timer }]) ++ rest ~ _
      rw [owned_append, List.append_assoc]
      exact hpool
    · intro timer' pt hobj
      change Function.update q.timers.obj timer none timer' = some pt at hobj
      -- the timer of the new element belongs to nobody else
      by_cases heq : timer' = timer
      · rw [heq, Function.update_self] at hobj
        cases hobj
      · rw [Function.update_of_ne heq] at hobj
        exact hold hobj
  | @armed timer rest pt k hperiod hfree hcreate hblock hpt hk =>
    have hpool := h.pool
    rw [hfree] at hpool
    refine ⟨hticks (iff_of_false (by simp) hperiod), ?_, ?_⟩
    · change owned (q.queue ++ [{ ele₀ with tick := some timer }]) ++ rest ~ _
      rw [owned_append, List.append_assoc]
      exact hpool
    · intro timer' pt' hobj
      change Function.update q.timers.obj timer (some pt) timer' = some pt' at hobj
      by_cases heq : timer' = timer
      · rw [heq, Function.update_self, Option.some.injEq] at hobj
        refine ⟨_, List.mem_append_right _ (List.mem_singleton_self _), congrArg some heq.symm, ?_⟩
        rw [← hobj, hpt]
      · rw [Function.update_of_ne heq] at hobj
        exact hold hobj

/-- A timer that an element owns is not free. -/
theorem Ticking.not_mem_timerLists (h : Ticking q) (hmem : ele ∈ q.queue) {timer : TimerId}
    (htick : ele.tick = some timer) : timer ∉ q.timers.timerLists := by
  have hnodup : (owned q.queue ++ q.timers.timerLists).Nodup :=
    h.pool.nodup_iff.2 (List.nodup_finRange _)
  exact (List.disjoint_of_nodup_append hnodup) (List.mem_filterMap.2 ⟨ele, hmem, htick⟩)

/-- A free timer has no object. -/
theorem Ticking.obj_eq_none (h : Ticking q) {timer : TimerId}
    (hfree : timer ∈ q.timers.timerLists) : q.timers.obj timer = none := by
  cases hobj : q.timers.obj timer with
  | none => rfl
  | some pt =>
    obtain ⟨e, he, htick, -⟩ := h.obj timer pt hobj
    exact absurd hfree (h.not_mem_timerLists he htick)

/-! ### Every change keeps the invariant -/

/-- The identity of a new element, and what it waits for, are not touched by its timer. -/
theorem ArmOutcome.same {ts ts' : Timers} {ele₀ : Queued} {platform : PlatformSupply}
    (h : ArmOutcome ts ele₀ platform ts' ele) : ∃ tick, ele = { ele₀ with tick := tick } := by
  cases h with
  | untimed => exact ⟨_, rfl⟩
  | uncreated => exact ⟨_, rfl⟩
  | armed => exact ⟨_, rfl⟩

theorem Sound.change (h : Sound q) (hchange : Change allowed q q') : Sound q' := by
  cases hchange with
  | removed hmem => exact ⟨h.toPending.remove hmem, h.toTicking.remove h.toPending hmem⟩
  | linked _ htick hbm haddr hfresh harm =>
    have houtcome := armTick_eq_ok harm
    obtain ⟨tick, rfl⟩ := houtcome.same
    exact ⟨h.toPending.link rfl hbm haddr hfresh, h.toTicking.link htick houtcome⟩
  | expired => exact ⟨{ h.toPending with }, { h.toTicking with }⟩
  | sent => exact ⟨{ h.toPending with }, { h.toTicking with }⟩
  | taken => exact ⟨{ h.toPending with }, { h.toTicking with }⟩

theorem Sound.changes (h : Sound q) (hchanges : Changes allowed q q') : Sound q' :=
  hchanges.invariant h Sound.change

theorem sound_initial : Sound initial where
  eventBm := rfl
  disjoint := .nil
  serials := .nil
  serial_lt := by simp [initial]
  addrs := .nil
  addr := by simp [initial]
  tick_eq_none_iff := by simp [initial]
  pool := .refl _
  obj := by simp [initial, Timers.initial]

/-! ### Elements are old or new -/

/-- What is queued was queued before, or was allocated since. -/
def Follows (q q' : EventQueue) : Prop :=
  q.serials ≤ q'.serials ∧ ∀ e ∈ q'.queue, e ∈ q.queue ∨ q.serials ≤ e.serial

theorem Follows.of_changes (h : Changes allowed q q') : Follows q q' := by
  induction h with
  | refl => exact ⟨le_rfl, fun e he ↦ .inl he⟩
  | @tail b c _ hchange ih =>
    obtain ⟨hle, hmem⟩ := ih
    cases hchange with
    | removed => exact ⟨hle, fun e he ↦ hmem e (List.mem_of_mem_erase he)⟩
    | linked _ _ _ _ _ harm =>
      obtain ⟨tick, rfl⟩ := (armTick_eq_ok harm).same
      refine ⟨Nat.le_succ_of_le hle, fun e he ↦ ?_⟩
      rcases List.mem_append.1 he with hold | hnew
      · exact hmem e hold
      · rw [List.mem_singleton.1 hnew]
        exact .inr hle
    | expired => exact ⟨hle, hmem⟩
    | sent => exact ⟨hle, hmem⟩
    | taken => exact ⟨hle, hmem⟩

/-- A pointer to an element leads to this element, or to nothing, forever. -/
theorem Follows.deref_eq (h : Follows q q') (hq : Pending q) (hmem : ele ∈ q.queue) {found : Queued}
    (hfound : q'.deref ele.serial = .ok found) : found = ele := by
  obtain ⟨hin, hserial⟩ := EventQueue.deref_eq_ok hfound
  rcases h.2 found hin with hold | hnew
  · exact hq.eq_of_serial_eq hold hmem hserial
  · have := hq.serial_lt ele hmem
    omega

end EventQueue

end Mblue
