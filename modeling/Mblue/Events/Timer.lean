import Mblue.Common.SmartData

/-!
# The timer pool and the platform timers

`mblue_timer.c` keeps twelve `struct mblue_timer` on a list of free ones. A timer that is in use has
an object behind `_obj`, on this platform a heap block `struct posix_timer` naming an operating-system
timer (`custom_timer.h`). `Timers` is all of this in one state: the list of free timers, what `_obj`
points to, and the operating-system timers that exist.

`_obj` is the only pointer to its block, so the block is embedded as the value of `_obj`; its number
`block` tells it from every other block ever allocated. What `mblue_free` was called for and what the
platform routines reported to `mblue_timer_stop` and `mblue_timer_uninit`, whose `_ASSERT` is empty
in the default build, is kept as **history**.

`freeTimer` is what the three calls of `__free_event_element` do together (`obj_freeTimer`,
`os_freeTimer`, `reports_freeTimer`).
-/

namespace Mblue

/-- What can go wrong in a step, after which C leaves the behaviour undefined. -/
inductive Fault
  /-- A timer that `mblue_timer_get` did not return is used. -/
  | nullTimer
  /-- The block of `platform_timer_init` is used although its allocation failed. -/
  | nullBlock
  /-- An element is read after it was freed. -/
  | freedElement
  /-- `call_chain` is read past its end. -/
  | badCallback
  deriving DecidableEq, Repr

/-- `MAX_TIMER_NUM`. -/
def maxTimerNum : ℕ := 12

/-- A `struct mblue_timer`, by its place in `timer_pool`. -/
abbrev TimerId := Fin maxTimerNum

/-- `struct timespec`. -/
structure Timespec where
  tvSec : ℕ
  tvNsec : ℕ
  deriving DecidableEq, Repr

/-- `struct itimerspec`. -/
structure Itimerspec where
  itInterval : Timespec
  itValue : Timespec
  deriving DecidableEq, Repr

/-- What `memset` makes of a specification: it disarms. -/
def Itimerspec.zero : Itimerspec := ⟨⟨0, 0⟩, ⟨0, 0⟩⟩

/-- A timer set to this specification runs. -/
def Itimerspec.Armed (spec : Itimerspec) : Prop := spec.itValue ≠ ⟨0, 0⟩

instance instDecidableArmed (spec : Itimerspec) : Decidable spec.Armed :=
  inferInstanceAs (Decidable (spec.itValue ≠ ⟨0, 0⟩))

/-- `struct posix_timer`. Its `param` is a pointer to an element of the event queue. -/
structure PosixTimer where
  /-- The number of this allocation. -/
  block : ℕ
  id : ℕ
  spec : Itimerspec
  param : ℕ
  deriving DecidableEq, Repr

/-- A timer of the operating system: the `struct mblue_timer` its signal carries, and its setting. -/
structure OsTimer where
  sivalPtr : TimerId
  spec : Itimerspec
  deriving DecidableEq, Repr

/-- The timers of the program and of the platform. -/
structure Timers where
  /-- `timer_lists`, the free timers. -/
  timerLists : List TimerId
  /-- `_obj`. -/
  obj : TimerId → Option PosixTimer
  /-- The timers of the operating system that exist. -/
  os : ℕ → Option OsTimer
  /-- How many `timer_create` made. -/
  created : ℕ
  /-- How many blocks `platform_timer_init` allocated. -/
  blocks : ℕ
  /-- History: the blocks that were freed, the latest last. -/
  freed : List ℕ
  /-- History: what `platform_timer_stop` and `platform_timer_uninit` returned, the latest last. -/
  reports : List ℤ

/-- What the platform answers to an initialisation. -/
structure PlatformSupply where
  /-- `timer_create` succeeds. -/
  create : Bool
  /-- The allocation of the block succeeds. -/
  block : Bool
  deriving DecidableEq, Repr

namespace Timers

/-- `timer_list_init`, with nothing created yet. -/
def initial : Timers where
  timerLists := List.finRange maxTimerNum
  obj _ := none
  os _ := none
  created := 0
  blocks := 0
  freed := []
  reports := []

/-- `mblue_timer_get`: the first free timer, wiped. -/
def mblueTimerGet (ts : Timers) : Option (TimerId × Timers) :=
  match ts.timerLists with
  | [] => none
  | timer :: rest =>
    some (timer, { ts with timerLists := rest, obj := Function.update ts.obj timer none })

/-- `mblue_timer_release`. -/
def mblueTimerRelease (ts : Timers) (timer : TimerId) : Timers :=
  { ts with timerLists := ts.timerLists ++ [timer] }

/-- `timer_settime`, relative and without the old setting. -/
def timerSettime (ts : Timers) (id : ℕ) (spec : Itimerspec) : Timers × ℤ :=
  match ts.os id with
  | none => (ts, -1)
  | some k => ({ ts with os := Function.update ts.os id (some { k with spec := spec }) }, 0)

/-- The setting `platform_timer_init` stores for a period in milliseconds. It does not set the interval
of a timer that does not reload, which is zero as `mblue_malloc` left it. -/
def specOf (period : Word) (autoReload : Bool) : Itimerspec :=
  let value : Timespec := ⟨period.toNat / 1000, period.toNat % 1000 * 1000000⟩
  ⟨if autoReload then value else ⟨0, 0⟩, value⟩

/-- `platform_timer_init`. The block is used without a look at whether there is one. -/
def platformTimerInit (ts : Timers) (timer : TimerId) (period : Word) (autoReload : Bool)
    (data : ℕ) (supply : PlatformSupply) : Except Fault (Timers × ℤ) :=
  if supply.create = false then .ok (ts, -1)
  else if supply.block = false then .error .nullBlock
  else
    let pt : PosixTimer := ⟨ts.blocks, ts.created, specOf period autoReload, data⟩
    .ok ({ ts with
      os := Function.update ts.os ts.created (some ⟨timer, .zero⟩)
      created := ts.created + 1
      blocks := ts.blocks + 1
      obj := Function.update ts.obj timer (some pt) }, 0)

/-- `platform_timer_start`. -/
def platformTimerStart (ts : Timers) (timer : TimerId) : Timers × ℤ :=
  match ts.obj timer with
  | none => (ts, -1)
  | some pt => ts.timerSettime pt.id pt.spec

/-- `platform_timer_stop`: `_obj` is cleared, the timer disarmed and the block freed. -/
def platformTimerStop (ts : Timers) (timer : TimerId) : Timers × ℤ :=
  match ts.obj timer with
  | none => (ts, -1)
  | some pt =>
    let ts := { ts with obj := Function.update ts.obj timer none }
    let (ts, rc) := ts.timerSettime pt.id .zero
    ({ ts with freed := ts.freed ++ [pt.block] }, rc)

/-- `platform_timer_uninit`. -/
def platformTimerUninit (ts : Timers) (timer : TimerId) : Timers × ℤ :=
  ts.platformTimerStop timer

/-- `mblue_timer_stop`. -/
def mblueTimerStop (ts : Timers) (timer : TimerId) : Timers :=
  let (ts, rc) := ts.platformTimerStop timer
  { ts with reports := ts.reports ++ [rc] }

/-- `mblue_timer_uninit`. -/
def mblueTimerUninit (ts : Timers) (timer : TimerId) : Timers :=
  let (ts, rc) := ts.platformTimerUninit timer
  { ts with reports := ts.reports ++ [rc] }

/-- The three calls of `__free_event_element` on the timer of an element. -/
def freeTimer (ts : Timers) (timer : TimerId) : Timers :=
  ((ts.mblueTimerStop timer).mblueTimerUninit timer).mblueTimerRelease timer

/-- An armed timer of the operating system expires: it is set to its interval. -/
def expire (ts : Timers) (id : ℕ) (k : OsTimer) : Timers :=
  { ts with
    os := Function.update ts.os id
      (some { k with spec := { k.spec with itValue := k.spec.itInterval } }) }

/-- `__timer_notify`: the parameter `notify` is called with, when there is one. -/
def timerNotify (ts : Timers) (timer : TimerId) : Option ℕ := (ts.obj timer).map (·.param)

/-! ### What the operations do -/

variable {ts ts' : Timers} {timer : TimerId}

theorem mblueTimerGet_eq_some_iff : ts.mblueTimerGet = some (timer, ts') ↔
    ∃ rest, ts.timerLists = timer :: rest ∧
      ts' = { ts with timerLists := rest, obj := Function.update ts.obj timer none } := by
  unfold mblueTimerGet
  split
  · next hnil => simp [hnil]
  · next head rest hcons =>
    constructor
    · intro h
      cases h
      exact ⟨rest, hcons, rfl⟩
    · rintro ⟨rest', hcons', rfl⟩
      obtain ⟨rfl, rfl⟩ := List.cons.inj (hcons.symm.trans hcons')
      rfl

/-- Setting a timer changes that timer's setting and nothing else. -/
theorem timerSettime_fst (ts : Timers) (id : ℕ) (spec : Itimerspec) :
    (ts.timerSettime id spec).1 =
      { ts with
        os := Function.update ts.os id ((ts.os id).map fun k ↦ { k with spec := spec }) } := by
  cases hid : ts.os id with
  | none =>
    have hsame : Function.update ts.os id none = ts.os := by
      rw [← hid, Function.update_eq_self]
    rw [timerSettime, hid, Option.map_none, hsame]
  | some k => rw [timerSettime, hid, Option.map_some]

/-- Setting succeeds for exactly the timers that exist. -/
theorem timerSettime_snd (ts : Timers) (id : ℕ) (spec : Itimerspec) :
    (ts.timerSettime id spec).2 = if (ts.os id).isSome then 0 else -1 := by
  cases hid : ts.os id with
  | none => rw [timerSettime, hid]; rfl
  | some k => rw [timerSettime, hid]; rfl

theorem platformTimerStop_of_none (h : ts.obj timer = none) :
    ts.platformTimerStop timer = (ts, -1) := by
  rw [platformTimerStop, h]

theorem mblueTimerUninit_of_none (h : ts.obj timer = none) :
    ts.mblueTimerUninit timer = { ts with reports := ts.reports ++ [-1] } := by
  rw [mblueTimerUninit, platformTimerUninit, platformTimerStop_of_none h]

/-- A timer without an object: both calls report a failure. -/
theorem freeTimer_of_none (h : ts.obj timer = none) :
    ts.freeTimer timer = { ts with
      timerLists := ts.timerLists ++ [timer]
      reports := ts.reports ++ [-1, -1] } := by
  have hstop : ts.mblueTimerStop timer = { ts with reports := ts.reports ++ [-1] } := by
    rw [mblueTimerStop, platformTimerStop_of_none h]
  have hstill : (ts.mblueTimerStop timer).obj timer = none := by
    rw [hstop]
    exact h
  rw [freeTimer, mblueTimerUninit_of_none hstill, hstop, mblueTimerRelease]
  simp only [List.append_assoc, List.cons_append, List.nil_append]

/-- The first call on a timer with an object. -/
theorem mblueTimerStop_of_some {pt : PosixTimer} (h : ts.obj timer = some pt) :
    ts.mblueTimerStop timer = { ts with
      obj := Function.update ts.obj timer none
      os := Function.update ts.os pt.id
        ((ts.os pt.id).map fun k ↦ { k with spec := .zero })
      freed := ts.freed ++ [pt.block]
      reports := ts.reports ++ [if (ts.os pt.id).isSome then 0 else -1] } := by
  rw [mblueTimerStop, platformTimerStop, h]
  simp only [timerSettime_fst, timerSettime_snd]

/-- **A timer with an object**: the first call clears `_obj`, so the second, which is the same
routine, fails; `timer_delete` is never called. -/
theorem freeTimer_of_some {pt : PosixTimer} (h : ts.obj timer = some pt) :
    ts.freeTimer timer = { ts with
      timerLists := ts.timerLists ++ [timer]
      obj := Function.update ts.obj timer none
      os := Function.update ts.os pt.id
        ((ts.os pt.id).map fun k ↦ { k with spec := .zero })
      freed := ts.freed ++ [pt.block]
      reports := ts.reports ++ [if (ts.os pt.id).isSome then 0 else -1, -1] } := by
  have hcleared : (ts.mblueTimerStop timer).obj timer = none := by
    rw [mblueTimerStop_of_some h]
    exact Function.update_self _ _ _
  rw [freeTimer, mblueTimerUninit_of_none hcleared, mblueTimerStop_of_some h, mblueTimerRelease]
  simp only [List.append_assoc, List.cons_append, List.nil_append]

@[simp] theorem timerLists_freeTimer (ts : Timers) (timer : TimerId) :
    (ts.freeTimer timer).timerLists = ts.timerLists ++ [timer] := by
  cases hobj : ts.obj timer with
  | none => rw [freeTimer_of_none hobj]
  | some pt => rw [freeTimer_of_some hobj]

@[simp] theorem obj_freeTimer (ts : Timers) (timer : TimerId) :
    (ts.freeTimer timer).obj = Function.update ts.obj timer none := by
  cases hobj : ts.obj timer with
  | none => rw [freeTimer_of_none hobj, ← hobj, Function.update_eq_self]
  | some pt => rw [freeTimer_of_some hobj]

/-- The platform's part of a start: an object for the timer, which may be armed. -/
theorem platformTimerStart_fst (ts : Timers) (timer : TimerId) :
    (ts.platformTimerStart timer).1 = match ts.obj timer with
      | none => ts
      | some pt => { ts with
          os := Function.update ts.os pt.id
            ((ts.os pt.id).map fun k ↦ { k with spec := pt.spec }) } := by
  cases hobj : ts.obj timer with
  | none => rw [platformTimerStart, hobj]
  | some pt => rw [platformTimerStart, hobj]; exact timerSettime_fst _ _ _

end Timers

end Mblue
