import Mblue.Events.Operations

/-!
# Wake-ups of timers, and the timers of the platform

Two properties of the path from a timer to its element and back.

* A wake-up travels through the task's queue with the bare address of its element, and nothing takes
  it back when the element is removed. In a run that removes no element for which a wake-up is still
  queued, every wake-up leads to the element whose timer expired (`freshWakeup_of_run`).
* `platform_timer_uninit` is `platform_timer_stop` once more: it finds `_obj` cleared and fails, and
  `timer_delete` is never called. In a run that removes no element with a timer, the timers of the
  operating system are those of the queued elements (`timersMatch_of_run`). That every block is freed
  exactly once holds in every run (`blocksOnce_of_reachable`).
-/

namespace Mblue

namespace EventQueue

variable {q : EventQueue}

/-! ### Wake-ups -/

/-- The oldest wake-up finds, at the address it carries, the very element whose timer expired. -/
def FreshWakeup (q : EventQueue) : Prop :=
  ∀ w rest, q.wakeups = w :: rest → pointerS w.param = true ∧
    ∃ e ∈ q.queue, e.serial = w.serial ∧
      q.queue.find? (·.addr == getPointer w.param) = some e

/-- An element may be removed when no wake-up for it is queued. -/
def Permit.awaited : Permit where
  removal ws e := ∀ w ∈ ws, w.serial ≠ e.serial
  platform _ := True

instance instDecidableAwaitedRemoval (ws : List TimerWakeup) (e : Queued) :
    Decidable (Permit.awaited.removal ws e) :=
  inferInstanceAs (Decidable (∀ w ∈ ws, w.serial ≠ e.serial))

instance instDecidableAwaitedPlatform (supply : PlatformSupply) :
    Decidable (Permit.awaited.platform supply) :=
  .isTrue trivial

/-- Every queued wake-up is for a queued element, and carries its address. -/
def Awaited (q : EventQueue) : Prop :=
  ∀ w ∈ q.wakeups, ∃ e ∈ q.queue, e.serial = w.serial ∧ w.param = makePointerS e.addr

theorem Awaited.change {a b : EventQueue} (hsound : Sound a) (h : Awaited a)
    (hchange : Change .awaited a b) : Awaited b := by
  cases hchange with
  | removed _ hallowed =>
    intro w hw
    obtain ⟨e, he, hserial, hparam⟩ := h w hw
    refine ⟨e, hsound.mem_erase_iff.2 ⟨?_, he⟩, hserial, hparam⟩
    rintro rfl
    exact hallowed w hw hserial.symm
  | linked =>
    intro w hw
    obtain ⟨e, he, hfor⟩ := h w hw
    exact ⟨e, List.mem_append_left _ he, hfor⟩
  | expired => exact h
  | @sent ele hmem =>
    intro w hw
    rcases List.mem_append.1 hw with hold | hnew
    · exact h w hold
    · rw [List.mem_singleton.1 hnew]
      exact ⟨ele, hmem, rfl, rfl⟩
  | taken hw =>
    intro w' hw'
    exact h w' (hw ▸ List.mem_cons_of_mem _ hw')

theorem Awaited.freshWakeup (hsound : Sound q) (h : Awaited q) : FreshWakeup q := by
  intro w rest hw
  obtain ⟨e, he, hserial, hparam⟩ := h w (hw ▸ List.mem_cons_self)
  have haddr := hsound.addr e he
  rw [hparam, pointerS_makePointerS haddr, getPointer_makePointerS haddr]
  exact ⟨rfl, e, he, hserial, hsound.find?_addr he⟩

/-- **No stale wake-up** in a run that removes no element for which a wake-up is still queued. -/
theorem freshWakeup_of_run (h : Run step (Permitted .awaited) initial q) : FreshWakeup q := by
  have hinitial : Awaited initial := by
    intro w hw
    cases hw
  obtain ⟨hsound, hawaited⟩ := invariant_of_run h hinitial Awaited.change
  exact hawaited.freshWakeup hsound

/-- A periodic timer expires twice; the first of its wake-ups is handled, the event goes on. -/
theorem freshWakeup_twice : ∃ t, exec step (Permitted .awaited) initial
      [.act (.schedule 1000 1 (some 7) ⟨some 4096, true, true⟩), .act (.expires 0 true),
        .act (.expires 0 true), .deliver ⟨[], 0⟩ ⟨[], 0⟩] = some t ∧
      t.wakeups = [⟨4098, 0⟩] ∧ FreshWakeup t :=
  exists_of_exec_eq rfl fun _ ↦ freshWakeup_of_run

/-- The event is cancelled between the expiry of its timer and the delivery of the wake-up. -/
theorem not_freshWakeup_cancelled : ∃ t, exec step (fun _ op ↦ op.TickNull) initial
      [.act (.schedule 1000 1 (some 7) ⟨some 4096, true, true⟩), .act (.expires 0 true),
        .act (.cancel 1)] = some t ∧ ¬ FreshWakeup t := by
  refine ⟨_, rfl, fun h ↦ ?_⟩
  obtain ⟨-, e, he, -⟩ := h _ _ rfl
  cases he

/-! ### Platform timers -/

/-- The block `pt` and its timer of the operating system belong to the queued element `e`. -/
def Drives (q : EventQueue) (pt : PosixTimer) (e : Queued) : Prop :=
  e ∈ q.queue ∧ ∃ timer, e.tick = some timer ∧ q.timers.obj timer = some pt

/-- What the layers of the timers are taken to do together. -/
structure TimersMatch (q : EventQueue) : Prop where
  /-- `platform_timer_stop` and `platform_timer_uninit` succeed. -/
  reports : ∀ rc ∈ q.timers.reports, rc = 0
  /-- A block is freed once, with its element. -/
  freed : ∀ b < q.timers.blocks, q.timers.freed.count b = 1 ∨
    q.timers.freed.count b = 0 ∧ ∃ pt e, Drives q pt e ∧ pt.block = b
  /-- The timers of the operating system are those of the elements that are queued with a timer. -/
  os : ∀ id, (q.timers.os id).isSome = true ↔ ∃ pt e, Drives q pt e ∧ pt.id = id
  driven : ∀ e ∈ q.queue, e.tick ≠ none → ∃ pt, Drives q pt e

/-- Only elements without a timer may be removed; the platform makes the timers it is asked for. -/
def Permit.timersKept : Permit where
  removal _ e := e.tick = none
  platform supply := supply.create = true

instance instDecidableTimersKeptRemoval (ws : List TimerWakeup) (e : Queued) :
    Decidable (Permit.timersKept.removal ws e) :=
  inferInstanceAs (Decidable (e.tick = none))

instance instDecidableTimersKeptPlatform (supply : PlatformSupply) :
    Decidable (Permit.timersKept.platform supply) :=
  inferInstanceAs (Decidable (supply.create = true))

/-- Nothing was ever torn down, and every timer made belongs to a queued element. -/
structure TimersKept (q : EventQueue) : Prop where
  reports : q.timers.reports = []
  freed : q.timers.freed = []
  blocks : ∀ b < q.timers.blocks, ∃ pt e, Drives q pt e ∧ pt.block = b
  os : ∀ id, (q.timers.os id).isSome = true → ∃ pt e, Drives q pt e ∧ pt.id = id
  id_lt : ∀ id, (q.timers.os id).isSome = true → id < q.timers.created
  driven : ∀ e ∈ q.queue, e.tick ≠ none → ∃ pt, Drives q pt e ∧ (q.timers.os pt.id).isSome = true

theorem TimersKept.timersMatch (h : TimersKept q) : TimersMatch q where
  reports := by
    rw [h.reports]
    simp
  freed b hb := .inr ⟨by rw [h.freed, List.count_nil], h.blocks b hb⟩
  os id := by
    refine ⟨h.os id, ?_⟩
    rintro ⟨pt, e, ⟨he, timer, htick, hobj⟩, rfl⟩
    obtain ⟨pt', ⟨-, timer', htick', hobj'⟩, hos⟩ := h.driven e he (by simp [htick])
    obtain rfl := Option.some.inj (htick.symm.trans htick')
    obtain rfl := Option.some.inj (hobj.symm.trans hobj')
    exact hos
  driven e he htick := by
    obtain ⟨pt, hdrives, -⟩ := h.driven e he htick
    exact ⟨pt, hdrives⟩

/-- The removal of an element without a timer takes no block away. -/
theorem Drives.remove (hsound : Sound q) {pt : PosixTimer} {e ele : Queued} (h : Drives q pt e)
    (htick : ele.tick = none) : Drives (q.remove ele) pt e := by
  obtain ⟨he, timer, hown, hobj⟩ := h
  refine ⟨hsound.mem_erase_iff.2 ⟨?_, he⟩, timer, hown, ?_⟩
  · rintro rfl
    rw [htick] at hown
    cases hown
  · rw [timers_remove, htick]
    exact hobj

theorem TimersKept.remove (hsound : Sound q) (h : TimersKept q) {ele : Queued}
    (htick : ele.tick = none) : TimersKept (q.remove ele) := by
  have htimers : (q.remove ele).timers = q.timers := by rw [timers_remove, htick]
  have hkeep : ∀ {P : PosixTimer → Prop}, (∃ pt e, Drives q pt e ∧ P pt) →
      ∃ pt e, Drives (q.remove ele) pt e ∧ P pt := by
    rintro P ⟨pt, e, hdrives, hP⟩
    exact ⟨pt, e, hdrives.remove hsound htick, hP⟩
  refine ⟨?_, ?_, fun b hb ↦ ?_, fun id hid ↦ ?_, fun id hid ↦ ?_, fun e he hown ↦ ?_⟩
  · rw [htimers, h.reports]
  · rw [htimers, h.freed]
  · rw [htimers] at hb
    exact hkeep (h.blocks b hb)
  · rw [htimers] at hid
    exact hkeep (h.os id hid)
  · rw [htimers] at hid ⊢
    exact h.id_lt id hid
  · obtain ⟨pt, hdrives, hos⟩ := h.driven e (List.mem_of_mem_erase he) hown
    rw [htimers]
    exact ⟨pt, hdrives.remove hsound htick, hos⟩

/-- A new element takes no block away, if its timer was free. -/
theorem Drives.link (hsound : Sound q) {pt : PosixTimer} {e ele : Queued} {ts : Timers}
    (h : Drives q pt e)
    (hobj : ∀ timer, timer ∉ q.timers.timerLists → ts.obj timer = q.timers.obj timer) :
    Drives (q.link ts ele) pt e := by
  obtain ⟨he, timer, hown, hpt⟩ := h
  exact ⟨List.mem_append_left _ he, timer, hown,
    (hobj timer (hsound.not_mem_timerLists he hown)).trans hpt⟩

theorem TimersKept.link (hsound : Sound q) (h : TimersKept q) {ele₀ ele : Queued} {ts : Timers}
    {platform : PlatformSupply} (htick : ele₀.tick = none) (hcreate : platform.create = true)
    (harm : ArmOutcome q.timers ele₀ platform ts ele) : TimersKept (q.link ts ele) := by
  cases harm with
  | untimed hperiod =>
    have hkeep : ∀ {pt : PosixTimer} {e : Queued}, Drives q pt e →
        Drives (q.link q.timers ele₀) pt e := fun hdrives ↦ hdrives.link hsound fun _ _ ↦ rfl
    refine ⟨h.reports, h.freed, fun b hb ↦ ?_, fun id hid ↦ ?_, h.id_lt, fun e he hown ↦ ?_⟩
    · obtain ⟨pt, e, hdrives, hb⟩ := h.blocks b hb
      exact ⟨pt, e, hkeep hdrives, hb⟩
    · obtain ⟨pt, e, hdrives, hid⟩ := h.os id hid
      exact ⟨pt, e, hkeep hdrives, hid⟩
    · rcases List.mem_append.1 he with hold | hnew
      · obtain ⟨pt, hdrives, hos⟩ := h.driven e hold hown
        exact ⟨pt, hkeep hdrives, hos⟩
      · rw [List.mem_singleton.1 hnew] at hown
        exact absurd htick hown
  | uncreated _ _ hfailed =>
    rw [hcreate] at hfailed
    cases hfailed
  | @armed timer rest pt k hperiod hfree _ hblock hpt hk =>
    set q' := q.link { q.timers with
      timerLists := rest
      obj := Function.update q.timers.obj timer (some pt)
      os := Function.update q.timers.os q.timers.created (some k)
      created := q.timers.created + 1
      blocks := q.timers.blocks + 1 } { ele₀ with tick := some timer }
    -- the timer comes from the free list, so it drove no element
    have hkeep : ∀ {pt' : PosixTimer} {e : Queued}, Drives q pt' e → Drives q' pt' e := by
      intro pt' e hdrives
      refine hdrives.link hsound fun timer' hnot ↦ Function.update_of_ne ?_ _ _
      rintro rfl
      exact hnot (hfree ▸ List.mem_cons_self)
    have hown : Drives q' pt { ele₀ with tick := some timer } :=
      ⟨List.mem_append_right _ (List.mem_singleton_self _), timer, rfl, Function.update_self _ _ _⟩
    have hnew : q'.timers.os q.timers.created = some k := Function.update_self _ _ _
    have hold : ∀ {id}, id ≠ q.timers.created → q'.timers.os id = q.timers.os id :=
      fun hne ↦ Function.update_of_ne hne _ _
    refine ⟨h.reports, h.freed, fun b hb ↦ ?_, fun id hid ↦ ?_, fun id hid ↦ ?_,
      fun e he htimed ↦ ?_⟩
    · rcases Nat.lt_succ_iff_lt_or_eq.1 hb with hlt | rfl
      · obtain ⟨pt', e, hdrives, hb⟩ := h.blocks b hlt
        exact ⟨pt', e, hkeep hdrives, hb⟩
      · exact ⟨pt, _, hown, by rw [hpt]⟩
    · by_cases hcreated : id = q.timers.created
      · exact ⟨pt, _, hown, by rw [hpt, hcreated]⟩
      · rw [hold hcreated] at hid
        obtain ⟨pt', e, hdrives, hid⟩ := h.os id hid
        exact ⟨pt', e, hkeep hdrives, hid⟩
    · by_cases hcreated : id = q.timers.created
      · rw [hcreated]
        exact Nat.lt_succ_self _
      · rw [hold hcreated] at hid
        exact Nat.lt_succ_of_lt (h.id_lt id hid)
    · rcases List.mem_append.1 he with hmem | hmem
      · obtain ⟨pt', hdrives, hos⟩ := h.driven e hmem htimed
        refine ⟨pt', hkeep hdrives, ?_⟩
        rw [hold (h.id_lt pt'.id hos).ne]
        exact hos
      · rw [List.mem_singleton.1 hmem]
        refine ⟨pt, hown, ?_⟩
        rw [show pt.id = q.timers.created by rw [hpt], hnew]
        rfl

theorem TimersKept.change {a b : EventQueue} (hsound : Sound a) (h : TimersKept a)
    (hchange : Change .timersKept a b) : TimersKept b := by
  cases hchange with
  | removed _ hallowed => exact h.remove hsound hallowed
  | linked hplatform htick _ _ _ harm =>
    exact h.link hsound htick hplatform (armTick_eq_ok harm)
  | @expired id k hk =>
    have hos : ∀ id', ((a.timers.expire id k).os id').isSome = (a.timers.os id').isSome := by
      intro id'
      by_cases hid : id' = id
      · rw [hid, hk]
        simp [Timers.expire]
      · simp [Timers.expire, Function.update_of_ne hid]
    refine ⟨h.reports, h.freed, h.blocks, fun id' hid ↦ ?_, fun id' hid ↦ ?_,
      fun e he htimed ↦ ?_⟩
    · exact h.os id' ((hos id').symm.trans hid)
    · exact h.id_lt id' ((hos id').symm.trans hid)
    · obtain ⟨pt, hdrives, hsome⟩ := h.driven e he htimed
      exact ⟨pt, hdrives, (hos pt.id).trans hsome⟩
  | sent => exact { h with }
  | taken => exact { h with }

theorem timersKept_initial : TimersKept initial := by
  refine ⟨rfl, rfl, ?_, ?_, ?_, ?_⟩
  · exact fun b hb ↦ absurd hb (Nat.not_lt_zero b)
  · exact fun id hid ↦ absurd hid (by simp [initial, Timers.initial])
  · exact fun id hid ↦ absurd hid (by simp [initial, Timers.initial])
  · exact fun e he ↦ absurd he List.not_mem_nil

/-- **The timers of the platform are those of the queue** in a run that removes no element with a
timer. -/
theorem timersMatch_of_run (h : Run step (Permitted .timersKept) initial q) : TimersMatch q :=
  (invariant_of_run h timersKept_initial TimersKept.change).2.timersMatch

/-- Two timed events, and an untimed one that ends. -/
theorem timersMatch_two : ∃ t, exec step (Permitted .timersKept) initial
      [.act (.schedule 1000 1 (some 7) ⟨some 4096, true, true⟩),
        .act (.schedule 500 2 (some 7) ⟨some 8192, true, true⟩),
        .addSimplePendingEvent 4 0 (some 9) ⟨some 12288, true, true⟩,
        .wakeup 4 ⟨[], -1⟩ ⟨[], 0⟩] = some t ∧
      (t.queue.map (·.type), t.timers.created) = ([1, 2], 2) ∧ TimersMatch t :=
  exists_of_exec_eq rfl fun _ ↦ timersMatch_of_run

/-- A timed event is cancelled: `platform_timer_uninit` fails, and the operating system keeps the
timer. -/
theorem not_timersMatch_cancelled : ∃ t, exec step (fun _ op ↦ op.TickNull) initial
      [.act (.schedule 1000 1 (some 7) ⟨some 4096, true, true⟩), .act (.cancel 1)] = some t ∧
      ¬ TimersMatch t := by
  refine ⟨_, rfl, fun h ↦ ?_⟩
  exact absurd (h.reports (-1) (by decide)) (by decide)

/-! ### What holds of the blocks in every run -/

/-- Every block is freed once at most, and as long as it is not freed it is some timer's. Freeing one
leaves a failure behind. -/
structure BlocksOnce (ts : Timers) : Prop where
  nodup : ts.freed.Nodup
  freed_lt : ∀ b ∈ ts.freed, b < ts.blocks
  live_lt : ∀ timer pt, ts.obj timer = some pt → pt.block < ts.blocks
  live_not_mem : ∀ timer pt, ts.obj timer = some pt → pt.block ∉ ts.freed
  live_inj : ∀ timer timer' pt pt', ts.obj timer = some pt → ts.obj timer' = some pt' →
    pt.block = pt'.block → timer = timer'
  covered : ∀ b < ts.blocks, b ∈ ts.freed ∨ ∃ timer pt, ts.obj timer = some pt ∧ pt.block = b
  reported : ts.freed ≠ [] → -1 ∈ ts.reports

theorem BlocksOnce.freeTimer {ts : Timers} (h : BlocksOnce ts) (timer : TimerId) :
    BlocksOnce (ts.freeTimer timer) := by
  cases hobj : ts.obj timer with
  | none =>
    rw [Timers.freeTimer_of_none hobj]
    exact { h with reported := fun hne ↦ List.mem_append_left _ (h.reported hne) }
  | some pt =>
    rw [Timers.freeTimer_of_some hobj]
    -- the other timers keep their blocks
    have hold : ∀ {timer' pt'}, Function.update ts.obj timer none timer' = some pt' →
        timer' ≠ timer ∧ ts.obj timer' = some pt' := by
      intro timer' pt' hpt'
      have hne : timer' ≠ timer := by
        rintro rfl
        rw [Function.update_self] at hpt'
        cases hpt'
      rw [Function.update_of_ne hne] at hpt'
      exact ⟨hne, hpt'⟩
    refine ⟨?_, ?_, ?_, ?_, ?_, ?_, fun _ ↦ List.mem_append_right _ (by simp)⟩
    · refine List.nodup_append.2 ⟨h.nodup, List.nodup_singleton _, fun b hb b' hb' ↦ ?_⟩
      rw [List.mem_singleton.1 hb']
      rintro rfl
      exact h.live_not_mem timer pt hobj hb
    · intro b hb
      rcases List.mem_append.1 hb with hb | hb
      · exact h.freed_lt b hb
      · rw [List.mem_singleton.1 hb]
        exact h.live_lt timer pt hobj
    · exact fun timer' pt' hpt' ↦ h.live_lt timer' pt' (hold hpt').2
    · intro timer' pt' hpt' hmem
      obtain ⟨hne, hpt'⟩ := hold hpt'
      rcases List.mem_append.1 hmem with hmem | hmem
      · exact h.live_not_mem timer' pt' hpt' hmem
      · exact hne (h.live_inj timer' timer pt' pt hpt' hobj (List.mem_singleton.1 hmem))
    · exact fun t t' pt₁ pt₂ h₁ h₂ ↦ h.live_inj t t' pt₁ pt₂ (hold h₁).2 (hold h₂).2
    · intro b hb
      rcases h.covered b hb with hfreed | ⟨timer', pt', hpt', rfl⟩
      · exact .inl (List.mem_append_left _ hfreed)
      · by_cases hsame : timer' = timer
        · rw [hsame, hobj] at hpt'
          cases hpt'
          exact .inl (List.mem_append_right _ (List.mem_singleton_self _))
        · exact .inr ⟨timer', pt', (Function.update_of_ne hsame _ _).trans hpt', rfl⟩

theorem BlocksOnce.arm {q : EventQueue} (hsound : Sound q) (h : BlocksOnce q.timers)
    {ele₀ ele : Queued} {ts : Timers} {platform : PlatformSupply}
    (harm : ArmOutcome q.timers ele₀ platform ts ele) : BlocksOnce ts := by
  cases harm with
  | untimed => exact h
  | @uncreated timer rest _ hfree =>
    have hnone := hsound.obj_eq_none (hfree ▸ List.mem_cons_self : timer ∈ q.timers.timerLists)
    rw [← hnone, Function.update_eq_self]
    exact { h with }
  | @armed timer rest pt k _ hfree _ _ hpt _ =>
    -- the block is new
    have hblock : pt.block = q.timers.blocks := by rw [hpt]
    have hcases : ∀ {timer' pt'}, Function.update q.timers.obj timer (some pt) timer' = some pt' →
        timer' = timer ∧ pt' = pt ∨ timer' ≠ timer ∧ q.timers.obj timer' = some pt' := by
      intro timer' pt' hpt'
      by_cases hsame : timer' = timer
      · rw [hsame, Function.update_self] at hpt'
        exact .inl ⟨hsame, (Option.some.inj hpt').symm⟩
      · rw [Function.update_of_ne hsame] at hpt'
        exact .inr ⟨hsame, hpt'⟩
    refine ⟨h.nodup, fun b hb ↦ Nat.lt_succ_of_lt (h.freed_lt b hb), ?_, ?_, ?_, ?_, h.reported⟩
    · intro timer' pt' hpt'
      obtain ⟨-, rfl⟩ | ⟨-, hold⟩ := hcases hpt'
      · rw [hblock]
        exact Nat.lt_succ_self _
      · exact Nat.lt_succ_of_lt (h.live_lt timer' pt' hold)
    · intro timer' pt' hpt' hmem
      obtain ⟨-, rfl⟩ | ⟨-, hold⟩ := hcases hpt'
      · exact absurd (h.freed_lt _ hmem) (by omega)
      · exact h.live_not_mem timer' pt' hold hmem
    · intro t₁ t₂ pt₁ pt₂ h₁ h₂ hsame
      obtain ⟨rfl, rfl⟩ | ⟨-, hold₁⟩ := hcases h₁ <;> obtain ⟨rfl, rfl⟩ | ⟨-, hold₂⟩ := hcases h₂
      · rfl
      · exact absurd (h.live_lt t₂ pt₂ hold₂) (by omega)
      · exact absurd (h.live_lt t₁ pt₁ hold₁) (by omega)
      · exact h.live_inj t₁ t₂ pt₁ pt₂ hold₁ hold₂ hsame
    · intro b hb
      rcases Nat.lt_succ_iff_lt_or_eq.1 hb with hlt | rfl
      · rcases h.covered b hlt with hfreed | ⟨timer', pt', hpt', rfl⟩
        · exact .inl hfreed
        · refine .inr ⟨timer', pt', ?_, rfl⟩
          have hne : timer' ≠ timer := by
            rintro rfl
            rw [hsound.obj_eq_none (hfree ▸ List.mem_cons_self)] at hpt'
            cases hpt'
          exact (Function.update_of_ne hne _ _).trans hpt'
      · exact .inr ⟨timer, pt, Function.update_self _ _ _, hblock⟩

theorem BlocksOnce.change {allowed : Permit} {a b : EventQueue} (hsound : Sound a)
    (h : BlocksOnce a.timers) (hchange : Change allowed a b) : BlocksOnce b.timers := by
  cases hchange with
  | @removed ele =>
    rw [timers_remove]
    cases ele.tick with
    | none => exact h
    | some timer => exact h.freeTimer timer
  | linked _ _ _ _ _ harm => exact h.arm hsound (armTick_eq_ok harm)
  | expired => exact { h with }
  | sent => exact h
  | taken => exact h

theorem blocksOnce_initial : BlocksOnce initial.timers := by
  refine ⟨List.nodup_nil, ?_, ?_, ?_, ?_, ?_, fun h ↦ absurd rfl h⟩
  · exact fun b hb ↦ absurd hb List.not_mem_nil
  · exact fun timer pt hpt ↦ absurd hpt (by simp [initial, Timers.initial])
  · exact fun timer pt hpt ↦ absurd hpt (by simp [initial, Timers.initial])
  · exact fun timer timer' pt pt' hpt ↦ absurd hpt (by simp [initial, Timers.initial])
  · exact fun b hb ↦ absurd hb (Nat.not_lt_zero b)

/-- Whatever the platform answers and whatever is removed, every block is freed once at most, and is
freed unless a timer still has it. -/
theorem blocksOnce_of_reachable (h : Reachable q) : BlocksOnce q.timers :=
  (invariant_of_run (P := fun q ↦ BlocksOnce q.timers) (run_all_of_reachable h) blocksOnce_initial
    BlocksOnce.change).2

/-- Everything may be removed; the platform makes the timers it is asked for. -/
def Permit.timersMade : Permit where
  removal _ _ := True
  platform supply := supply.create = true

/-- As long as no block is freed, nothing with a timer has been removed. -/
theorem timersKept_change_of_freed {a b : EventQueue} (hsound : Sound a)
    (h : a.timers.freed = [] → TimersKept a) (hchange : Change .timersMade a b)
    (hfreed : b.timers.freed = []) : TimersKept b := by
  cases hchange with
  | @removed ele hmem =>
    rw [timers_remove] at hfreed
    cases htick : ele.tick with
    | none =>
      rw [htick] at hfreed
      exact (h hfreed).change hsound (.removed hmem htick)
    | some timer =>
      simp only [htick] at hfreed
      cases hobj : a.timers.obj timer with
      | none =>
        -- A timed element has an object as long as nothing was freed.
        rw [Timers.freeTimer_of_none hobj] at hfreed
        obtain ⟨pt, ⟨-, timer', hown, hpt⟩, -⟩ := (h hfreed).driven ele hmem (by simp [htick])
        obtain rfl := Option.some.inj (htick.symm.trans hown)
        rw [hobj] at hpt
        cases hpt
      | some pt =>
        rw [Timers.freeTimer_of_some hobj] at hfreed
        exact absurd hfreed (List.append_ne_nil_of_right_ne_nil _ (List.cons_ne_nil _ _))
  | linked hplatform htick hbm haddr hfresh harm =>
    have hsame : a.timers.freed = [] := by
      cases armTick_eq_ok harm with
      | untimed => exact hfreed
      | uncreated => exact hfreed
      | armed => exact hfreed
    exact (h hsame).change hsound (.linked hplatform htick hbm haddr hfresh harm)
  | expired hk => exact (h hfreed).change hsound (.expired hk)
  | sent hmem => exact (h hfreed).change hsound (.sent hmem)
  | taken hw => exact (h hfreed).change hsound (.taken hw)

/-- The timers of the platform are those of the queue in exactly the states in which no block has
been freed yet. -/
theorem timersMatch_iff_freed_eq_nil (h : Run step (Permitted .timersMade) initial q) :
    TimersMatch q ↔ q.timers.freed = [] := by
  have hrun : Reachable q := h.mono fun hpermitted ↦ hpermitted.1
  constructor
  · intro hmatch
    by_contra hne
    exact absurd (hmatch.reports (-1) ((blocksOnce_of_reachable hrun).reported hne)) (by decide)
  · intro hfreed
    have hinitial : initial.timers.freed = [] → TimersKept initial := fun _ ↦ timersKept_initial
    exact ((invariant_of_run (P := fun q ↦ q.timers.freed = [] → TimersKept q) h hinitial
      timersKept_change_of_freed).2 hfreed).timersMatch

end EventQueue

end Mblue
