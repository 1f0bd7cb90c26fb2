import Mblue.Properties.SendMessage
import Mblue.System.Reduction

/-!
# `bus_signal` when messages or queue places run out

`bus_signal` with its return value, executed by the bus task without interruption (`busSignal`); it
has the highest priority in user space. It is the same code as the commands `busSignal`,
`busSignalLoop`, `post`, `semPost` and `release` of `System/Machine.lean`: `run_busSignal` says that
the bus task goes through exactly these states, when every task has its `nproc`.

`Distributes` is what a sender would like to conclude: no segment gets more replicas than it has
subscriptions, `MBLUE_OK` means that none gets fewer, and the original and every replica that was not
delivered are back in the pool. `exists_signalRounds` says what the loop really does, for every
number of free messages and every filling of the queues. **Only when there is enough of everything is
it what was expected** (`distributes_iff`): with too few messages the copy goes to the null pointer,
a full queue loses its replica behind an `MBLUE_OK`, a subscriber without task is skipped behind one,
and an original with a second reference stays allocated.
-/

set_option linter.unusedSectionVars false

namespace Mblue

variable {ι σ : Type} [DecidableEq ι] [DecidableEq σ] (cfg : Config ι σ) (nproc : ι → Bool)
  (m : MsgId)

/-! ### The function -/

/-- The loop of `bus_signal`; `none` when `memcpy` is given the null pointer. -/
def signalRounds : List σ → Shared ι σ → Option (Shared ι σ)
  | [], sh => some sh
  | ms :: rest, sh =>
    match (cfg.context ms).filter nproc with
    | none => signalRounds rest sh
    | some t =>
      match sh.alloc (replicate (sh.pool m) ms) with
      | none => none
      | some (r, sh') =>
        let sh' := sh'.log (.replica (sh.pool m) (replicate (sh.pool m) ms))
        signalRounds rest (templateMsgPost cfg t r sh').2

/-- `bus_signal`. -/
def busSignal (sh : Shared ι σ) : Option (MblueErrcode × Shared ι σ) :=
  (sh.pool m).major.bind fun major ↦
    let subs := sh.publishList major
    let sh' := sh.log (.relayed (sh.pool m).draw major subs)
    if subs = [] then some (.errUnknown, sh'.release m)
    else (signalRounds cfg nproc m subs sh').map fun sh' ↦ (.ok, sh'.release m)

/-! ### What the loop does -/

/-- The subscriptions the loop makes a replica for. -/
def bound (subs : List σ) : List σ := subs.filter fun ms ↦ (cfg.context ms).any nproc

/-- The replicas posted to a task, of pairs of a subscriber and a message. -/
def addressed (pairs : List (σ × MsgId)) (t : ι) : List MsgId :=
  (pairs.filter (cfg.context ·.1 = some t)).map (·.2)

/-- The loop has made these replicas, and each queue has taken as many of its own as it has room
for. -/
structure Rounds (pairs : List (σ × MsgId)) (sh sh' : Shared ι σ) : Prop where
  msgList_eq : sh.msgList = pairs.map (·.2) ++ sh'.msgList
  mq_eq : ∀ t, sh'.mq t =
    sh.mq t ++ (addressed cfg pairs t).take (cfg.capacity t - (sh.mq t).length)
  pool_replica : ∀ x ∈ pairs, sh'.pool x.2 = replicate (sh.pool m) x.1
  pool_other : ∀ a ∉ pairs.map (·.2), sh'.pool a = sh.pool a

variable {cfg nproc m} {sh sh' : Shared ι σ} {subs rest : List σ} {ms : σ} {t : ι} {r : MsgId}

theorem filter_eq_none_iff : (cfg.context ms).filter nproc = none ↔
    (cfg.context ms).any nproc = false := by
  cases cfg.context ms with
  | none => simp
  | some t => simp [Option.filter]

theorem filter_eq_some (h : (cfg.context ms).filter nproc = some t) :
    cfg.context ms = some t ∧ (cfg.context ms).any nproc = true := by
  rw [Option.filter_eq_some_iff] at h
  exact ⟨h.1, by rw [h.1]; exact h.2⟩

theorem bound_cons_of_skipped (h : (cfg.context ms).filter nproc = none) :
    bound cfg nproc (ms :: rest) = bound cfg nproc rest := by
  have hnone := filter_eq_none_iff.1 h
  simp only [bound, List.filter_cons, hnone, Bool.false_eq_true, if_false]

theorem bound_cons_of_bound (h : (cfg.context ms).filter nproc = some t) :
    bound cfg nproc (ms :: rest) = ms :: bound cfg nproc rest := by
  have hsome := (filter_eq_some h).2
  simp only [bound, List.filter_cons, hsome, if_true]

theorem addressed_cons_of_eq {pairs : List (σ × MsgId)} (h : cfg.context ms = some t) :
    addressed cfg ((ms, r) :: pairs) t = r :: addressed cfg pairs t := by
  simp only [addressed, List.filter_cons, h, decide_true, if_true, List.map_cons]

theorem addressed_cons_of_ne {pairs : List (σ × MsgId)} (h : cfg.context ms ≠ some t) :
    addressed cfg ((ms, r) :: pairs) t = addressed cfg pairs t := by
  simp only [addressed, List.filter_cons, h, decide_false, Bool.false_eq_true, if_false]

/-- One round: the queue takes the replica if it has room. -/
theorem Rounds.cons {pairs : List (σ × MsgId)} {free : List MsgId} {sh₁ : Shared ι σ}
    (hctx : cfg.context ms = some t) (hm : m ∉ r :: free) (hnodup : (r :: free).Nodup)
    (hlist : sh.msgList = r :: free) (hlist₁ : sh₁.msgList = free) (hmq : sh₁.mq = sh.mq)
    (hpool : sh₁.pool = Function.update sh.pool r (replicate (sh.pool m) ms))
    (h : Rounds cfg m pairs (templateMsgPost cfg t r sh₁).2 sh') :
    Rounds cfg m ((ms, r) :: pairs) sh sh' := by
  have hne : m ≠ r := fun heq ↦ hm (heq ▸ List.mem_cons_self)
  have hpoolm : (templateMsgPost cfg t r sh₁).2.pool m = sh.pool m := by
    rw [templateMsgPost_pool, hpool, Function.update_of_ne hne]
  have hlist₂ : (templateMsgPost cfg t r sh₁).2.msgList = free :=
    (templateMsgPost_msgList t r).trans hlist₁
  have hfree : free = pairs.map (·.2) ++ sh'.msgList := hlist₂.symm.trans h.msgList_eq
  have hr : r ∉ pairs.map (·.2) := fun hmem ↦
    (List.nodup_cons.1 hnodup).1 (hfree ▸ List.mem_append_left _ hmem)
  refine ⟨?_, fun u ↦ ?_, fun x hx ↦ ?_, fun a ha ↦ ?_⟩
  · rw [hlist, hfree]
    rfl
  · rw [h.mq_eq u]
    by_cases hu : t = u
    · subst hu
      rw [addressed_cons_of_eq hctx]
      rcases Nat.lt_or_ge (sh₁.mq t).length (cfg.capacity t) with hroom | hfull
      · have hleft : cfg.capacity t - (sh.mq t).length =
            cfg.capacity t - ((sh.mq t).length + 1) + 1 := by
          rw [hmq] at hroom
          omega
        rw [templateMsgPost_of_room hroom]
        dsimp only
        rw [Function.update_self, hmq, List.length_append, List.length_singleton, hleft,
          List.take_succ_cons, List.append_assoc, List.singleton_append]
      · -- the replica is lost, and so are those after it
        have hleft : cfg.capacity t - (sh.mq t).length = 0 := by
          rw [hmq] at hfull
          omega
        rw [templateMsgPost_of_full hfull]
        dsimp only
        rw [hmq, hleft, List.take_zero, List.take_zero]
    · have hother : cfg.context ms ≠ some u := fun heq ↦
        hu (Option.some.inj (hctx.symm.trans heq))
      have hsame : (templateMsgPost cfg t r sh₁).2.mq u = sh.mq u := by
        rcases Nat.lt_or_ge (sh₁.mq t).length (cfg.capacity t) with hroom | hfull
        · rw [templateMsgPost_of_room hroom]
          dsimp only
          rw [Function.update_of_ne (Ne.symm hu), hmq]
        · rw [templateMsgPost_of_full hfull]
          exact congrFun hmq u
      rw [addressed_cons_of_ne hother, hsame]
  · rcases List.mem_cons.1 hx with rfl | hx
    · rw [h.pool_other r hr, templateMsgPost_pool, hpool, Function.update_self]
    · rw [h.pool_replica x hx, hpoolm]
  · rw [List.map_cons, List.mem_cons, not_or] at ha
    rw [h.pool_other a ha.2, templateMsgPost_pool, hpool, Function.update_of_ne ha.1]

/-- **What the loop of `bus_signal` does**, when it gets to its end. -/
theorem exists_signalRounds (hm : m ∉ sh.msgList) (hnodup : sh.msgList.Nodup)
    (h : signalRounds cfg nproc m subs sh = some sh') :
    ∃ pairs : List (σ × MsgId), pairs.map (·.1) = bound cfg nproc subs ∧
      Rounds cfg m pairs sh sh' := by
  induction subs generalizing sh with
  | nil =>
    cases h
    refine ⟨[], rfl, rfl, fun t ↦ ?_, fun x hx ↦ absurd hx List.not_mem_nil, fun a _ ↦ rfl⟩
    simp [addressed]
  | cons ms rest ih =>
    rw [signalRounds] at h
    cases hctx : (cfg.context ms).filter nproc with
    | none =>
      rw [hctx] at h
      rw [bound_cons_of_skipped hctx]
      exact ih hm hnodup h
    | some t =>
      rw [hctx] at h
      dsimp only at h
      cases halloc : sh.alloc (replicate (sh.pool m) ms) with
      | none =>
        rw [halloc] at h
        cases h
      | some res =>
        obtain ⟨r, sh₁⟩ := res
        rw [halloc] at h
        obtain ⟨free, hlist, hsh⟩ := alloc_eq_some halloc
        rw [hlist] at hm hnodup
        have hpost : (templateMsgPost cfg t r (sh₁.log (.replica (sh.pool m)
            (replicate (sh.pool m) ms)))).2.msgList = free := by
          rw [templateMsgPost_msgList, hsh]
          rfl
        -- the rest of the loop starts from the pool without this message
        obtain ⟨pairs, hfst, hrounds⟩ := ih (fun hmem ↦ hm (List.mem_cons_of_mem _ (hpost ▸ hmem)))
          (hpost ▸ (List.nodup_cons.1 hnodup).2) h
        refine ⟨(ms, r) :: pairs, ?_, Rounds.cons (filter_eq_some hctx).1 hm hnodup hlist ?_ ?_ ?_
          hrounds⟩
        · rw [bound_cons_of_bound hctx, ← hfst]
          rfl
        · rw [hsh]
          rfl
        · rw [hsh]
          rfl
        · rw [hsh]
          rfl

/-- **The loop gets to its end** if and only if there are messages for its replicas. -/
theorem signalRounds_isSome_iff (hcount : sh.count = sh.msgList.length) :
    (∃ sh', signalRounds cfg nproc m subs sh = some sh') ↔
      (bound cfg nproc subs).length ≤ sh.msgList.length := by
  induction subs generalizing sh with
  | nil => exact iff_of_true ⟨sh, rfl⟩ (Nat.zero_le _)
  | cons ms rest ih =>
    rw [signalRounds]
    cases hctx : (cfg.context ms).filter nproc with
    | none =>
      rw [bound_cons_of_skipped hctx]
      exact ih hcount
    | some t =>
      rw [bound_cons_of_bound hctx, List.length_cons]
      dsimp only
      cases halloc : sh.alloc (replicate (sh.pool m) ms) with
      | none =>
        have hempty : sh.msgList.length = 0 := by
          rcases alloc_eq_none_iff.1 halloc with hzero | hnil
          · rw [← hcount, hzero]
          · rw [hnil]
            rfl
        rw [hempty]
        refine iff_of_false ?_ (Nat.not_succ_le_zero _)
        rintro ⟨sh', h⟩
        cases h
      | some res =>
        obtain ⟨r, sh₁⟩ := res
        obtain ⟨free, hlist, hsh⟩ := alloc_eq_some halloc
        have hpost : (templateMsgPost cfg t r (sh₁.log (.replica (sh.pool m)
            (replicate (sh.pool m) ms)))).2.msgList = free := by
          rw [templateMsgPost_msgList, hsh]
          rfl
        have hcount' : (templateMsgPost cfg t r (sh₁.log (.replica (sh.pool m)
            (replicate (sh.pool m) ms)))).2.count = free.length := by
          rw [templateMsgPost_count, hsh]
          show sh.count - 1 = free.length
          rw [hcount, hlist, List.length_cons, Nat.add_sub_cancel]
        refine (ih (hcount'.trans (congrArg List.length hpost).symm)).trans ?_
        rw [hpost, hlist, List.length_cons, Nat.succ_le_succ_iff]

/-! ### What was expected -/

/-- The messages a queue has got. -/
def delivered (sh sh' : Shared ι σ) (t : ι) : List MsgId := (sh'.mq t).drop (sh.mq t).length

/-- How many replicas of a message for a segment the queue of a task has got. -/
def replicas (m : MsgId) (sh sh' : Shared ι σ) (t : ι) (ms : σ) : ℕ :=
  (delivered sh sh' t).countP fun a ↦ sh'.pool a = replicate (sh.pool m) ms

/-- No segment gets more replicas than it has subscriptions, and with `MBLUE_OK` none gets fewer;
the original and every free message that was not delivered are in the pool afterwards. -/
structure Distributes (cfg : Config ι σ) (m : MsgId) (subs : List σ) (sh : Shared ι σ)
    (r : MblueErrcode × Shared ι σ) : Prop where
  keeps : ∀ t, sh.mq t <+: r.2.mq t
  at_most : ∀ t ms, replicas m sh r.2 t ms ≤
    if cfg.context ms = some t then subs.count ms else 0
  all_of_ok : r.1 = .ok → ∀ ms ∈ subs, ∃ t, cfg.context ms = some t ∧
    replicas m sh r.2 t ms = subs.count ms
  original : m ∈ r.2.msgList
  undelivered : ∀ a ∈ sh.msgList, a ∈ r.2.msgList ∨ ∃ t, a ∈ delivered sh r.2 t

/-- There is enough of everything: a message for each subscription, a task with `nproc` for each
subscriber, room in its queue for all the replicas it is to get, and no other user of the
original. -/
structure Enough (cfg : Config ι σ) (nproc : ι → Bool) (m : MsgId) (subs : List σ)
    (sh : Shared ι σ) : Prop where
  ref_le : (sh.pool m).ref.val ≤ 1
  messages : subs.length ≤ sh.msgList.length
  places : ∀ ms ∈ subs, ∃ t, cfg.context ms = some t ∧ nproc t = true ∧
    (sh.mq t).length + subs.countP (cfg.context · = some t) ≤ cfg.capacity t

/-- A list of which a prefix has all the occurrences is no longer than the prefix. -/
theorem length_le_of_count_take {α : Type} [DecidableEq α] {l : List α} {k : ℕ}
    (h : ∀ x ∈ l, (l.take k).count x = l.count x) : l.length ≤ k := by
  by_contra hlt
  have hdrop : l.drop k ≠ [] := fun hnil ↦ hlt (List.drop_eq_nil_iff.1 hnil)
  obtain ⟨x, hx⟩ := List.exists_mem_of_ne_nil _ hdrop
  have hsplit : (l.take k).count x + (l.drop k).count x = l.count x := by
    rw [← List.count_append, List.take_append_drop]
  have hpos := List.count_pos_iff.2 hx
  have hsame := h x (List.mem_of_mem_drop hx)
  omega

/-- A segment's subscriptions are among those of its task. -/
theorem count_filter_context (h : cfg.context ms = some t) :
    (subs.filter (cfg.context · = some t)).count ms = subs.count ms :=
  List.count_filter (p := (cfg.context · = some t)) (decide_eq_true h)

/-- The subscribers whose replicas a queue takes. -/
def accepted (cfg : Config ι σ) (nproc : ι → Bool) (subs : List σ) (sh : Shared ι σ) (t : ι) :
    List σ :=
  ((bound cfg nproc subs).filter (cfg.context · = some t)).take
    (cfg.capacity t - (sh.mq t).length)

theorem bound_eq_self (h : ∀ ms ∈ subs, ∃ t, cfg.context ms = some t ∧ nproc t = true) :
    bound cfg nproc subs = subs := by
  refine List.filter_eq_self.2 fun ms hms ↦ ?_
  obtain ⟨t, hctx, hproc⟩ := h ms hms
  rw [hctx]
  exact hproc

theorem filter_bound (h : nproc t = true) :
    (bound cfg nproc subs).filter (cfg.context · = some t) =
      subs.filter (cfg.context · = some t) := by
  rw [bound, List.filter_filter]
  refine List.filter_congr fun ms _ ↦ ?_
  by_cases hctx : cfg.context ms = some t
  · rw [hctx, Option.any_some, h, Bool.and_true]
  · rw [decide_eq_false hctx, Bool.false_and]

section Loop

variable {pairs : List (σ × MsgId)} (hfst : pairs.map (·.1) = bound cfg nproc subs)
  (hrounds : Rounds cfg m pairs sh sh') (hm : m ∉ sh.msgList)

include hrounds hm in
theorem Rounds.ne_original {x : σ × MsgId} (hx : x ∈ pairs) : x.2 ≠ m := fun heq ↦
  hm (hrounds.msgList_eq ▸ heq ▸ List.mem_append_left _ (List.mem_map_of_mem hx))

include hrounds in
theorem Rounds.delivered_eq (t : ι) : delivered sh (sh'.release m) t =
    (addressed cfg pairs t).take (cfg.capacity t - (sh.mq t).length) := by
  rw [delivered, mq_release, hrounds.mq_eq t, List.drop_left]

include hfst hrounds hm in
/-- How many replicas for a segment a queue gets. -/
theorem Rounds.replicas_eq (t : ι) (ms : σ) :
    replicas m sh (sh'.release m) t ms = (accepted cfg nproc subs sh t).count ms := by
  have hmap : ((pairs.filter (cfg.context ·.1 = some t)).take
      (cfg.capacity t - (sh.mq t).length)).map (·.1) = accepted cfg nproc subs sh t := by
    rw [accepted, ← hfst, List.map_take, List.filter_map]
    rfl
  rw [replicas, hrounds.delivered_eq, addressed, ← List.map_take, List.countP_map, ← hmap,
    List.count, List.countP_map]
  refine List.countP_congr fun x hx ↦ ?_
  have hmem : x ∈ pairs := List.mem_of_mem_filter (List.mem_of_mem_take hx)
  have hpool : (sh'.release m).pool x.2 = replicate (sh.pool m) x.1 := by
    rw [pool_release, Function.update_of_ne (hrounds.ne_original hm hmem),
      hrounds.pool_replica x hmem]
  simp only [Function.comp_apply, hpool, decide_eq_true_eq, beq_iff_eq]
  constructor
  · intro heq
    exact Option.some.inj (congrArg Message.dst heq)
  · rintro rfl
    rfl

include hrounds hm in
/-- The original goes back if nobody else uses it. -/
theorem Rounds.original_iff : m ∈ (sh'.release m).msgList ↔ (sh.pool m).ref.val ≤ 1 := by
  have hother : m ∉ pairs.map (·.2) := fun hmem ↦ by
    obtain ⟨x, hx, heq⟩ := List.mem_map.1 hmem
    exact hrounds.ne_original hm hx heq
  have hfree : m ∉ sh'.msgList := fun hmem ↦
    hm (hrounds.msgList_eq ▸ List.mem_append_right _ hmem)
  have hval := putMblueMessage_val (sh.pool m).ref
  rw [mem_msgList_release, hrounds.pool_other m hother]
  constructor
  · rintro (hmem | ⟨-, hzero⟩)
    · exact absurd hmem hfree
    · rw [hzero, Fin.val_zero] at hval
      omega
  · intro hle
    refine .inr ⟨rfl, Fin.ext ?_⟩
    rw [hval, Fin.val_zero]
    omega

include hfst in
theorem length_addressed (t : ι) :
    (addressed cfg pairs t).length =
      ((bound cfg nproc subs).filter (cfg.context · = some t)).length := by
  rw [addressed, List.length_map, ← hfst, List.filter_map, List.length_map]
  rfl

/-- A queue gets no more than its task's segments have subscribed. -/
theorem count_accepted_le (t : ι) (ms : σ) : (accepted cfg nproc subs sh t).count ms ≤
    if cfg.context ms = some t then subs.count ms else 0 := by
  have hsub : (accepted cfg nproc subs sh t).Sublist
      ((bound cfg nproc subs).filter (cfg.context · = some t)) := List.take_sublist _ _
  split
  · exact (hsub.trans (List.filter_sublist.trans List.filter_sublist)).count_le ms
  · next hctx =>
    refine Nat.le_of_eq (List.count_eq_zero.2 fun hmem ↦ hctx ?_)
    exact of_decide_eq_true (List.mem_filter.1 (hsub.subset hmem)).2

include hfst hrounds hm in
/-- If every subscription was served, there was enough of everything. -/
theorem Rounds.enough {rc : MblueErrcode} (hrc : subs ≠ [] → rc = .ok)
    (h : Distributes cfg m subs sh (rc, sh'.release m)) : Enough cfg nproc m subs sh := by
  have hserved : ∀ ms ∈ subs, ∃ t, cfg.context ms = some t ∧
      (accepted cfg nproc subs sh t).count ms = subs.count ms := fun ms hms ↦ by
    obtain ⟨t, hctx, hcount⟩ := h.all_of_ok (hrc (List.ne_nil_of_mem hms)) ms hms
    exact ⟨t, hctx, by rw [← hrounds.replicas_eq hfst hm, hcount]⟩
  have hplaces : ∀ ms ∈ subs, ∃ t, cfg.context ms = some t ∧ nproc t = true ∧
      (sh.mq t).length + subs.countP (cfg.context · = some t) ≤ cfg.capacity t := by
    intro ms hms
    obtain ⟨t, hctx, hcount⟩ := hserved ms hms
    have hproc : nproc t = true := by
      have hpos : 0 < (accepted cfg nproc subs sh t).count ms := hcount ▸ List.count_pos_iff.2 hms
      have hmem := List.mem_of_mem_filter (List.mem_of_mem_take (List.count_pos_iff.1 hpos))
      have hany := (List.mem_filter.1 hmem).2
      rwa [hctx] at hany
    refine ⟨t, hctx, hproc, ?_⟩
    have hle : (subs.filter (cfg.context · = some t)).length ≤
        cfg.capacity t - (sh.mq t).length := by
      refine length_le_of_count_take fun x hx ↦ ?_
      obtain ⟨hxsubs, hxctx⟩ := List.mem_filter.1 hx
      obtain ⟨u, hu, hxcount⟩ := hserved x hxsubs
      obtain rfl : t = u := Option.some.inj ((of_decide_eq_true hxctx).symm.trans hu)
      rw [accepted, filter_bound hproc] at hxcount
      rw [hxcount, count_filter_context (of_decide_eq_true hxctx)]
    have hpos : 0 < (subs.filter (cfg.context · = some t)).length :=
      List.length_pos_of_mem (List.mem_filter.2 ⟨hms, decide_eq_true hctx⟩)
    rw [List.countP_eq_length_filter]
    omega
  refine ⟨(hrounds.original_iff hm).1 h.original, ?_, hplaces⟩
  have hbound : bound cfg nproc subs = subs := bound_eq_self fun ms hms ↦ by
    obtain ⟨t, hctx, hproc, -⟩ := hplaces ms hms
    exact ⟨t, hctx, hproc⟩
  rw [← hbound, ← hfst, List.length_map, hrounds.msgList_eq, List.length_append, List.length_map]
  exact Nat.le_add_right _ _

include hfst hrounds hm in
/-- With enough of everything every subscription is served. -/
theorem Rounds.distributes {rc : MblueErrcode} (h : Enough cfg nproc m subs sh) :
    Distributes cfg m subs sh (rc, sh'.release m) := by
  have hbound : bound cfg nproc subs = subs := bound_eq_self fun ms hms ↦ by
    obtain ⟨t, hctx, hproc, -⟩ := h.places ms hms
    exact ⟨t, hctx, hproc⟩
  refine ⟨fun t ↦ ?_, fun t ms ↦ ?_, fun _ ms hms ↦ ?_, (hrounds.original_iff hm).2 h.ref_le,
    fun a ha ↦ ?_⟩
  · show sh.mq t <+: (sh'.release m).mq t
    rw [mq_release, hrounds.mq_eq t]
    exact List.prefix_append _ _
  · exact (hrounds.replicas_eq hfst hm t ms).trans_le (count_accepted_le t ms)
  · obtain ⟨t, hctx, -, hle⟩ := h.places ms hms
    refine ⟨t, hctx, (hrounds.replicas_eq hfst hm t ms).trans ?_⟩
    rw [List.countP_eq_length_filter] at hle
    rw [accepted, hbound, List.take_of_length_le (Nat.le_sub_of_add_le' hle),
      count_filter_context hctx]
  · rw [hrounds.msgList_eq, List.mem_append] at ha
    rcases ha with hused | hfree
    · obtain ⟨x, hx, rfl⟩ := List.mem_map.1 hused
      have hsubs : x.1 ∈ subs := hbound ▸ hfst ▸ List.mem_map_of_mem hx
      obtain ⟨t, hctx, -, hle⟩ := h.places x.1 hsubs
      refine .inr ⟨t, ?_⟩
      show x.2 ∈ delivered sh (sh'.release m) t
      rw [List.countP_eq_length_filter] at hle
      rw [hrounds.delivered_eq, List.take_of_length_le]
      · exact List.mem_map_of_mem (List.mem_filter.2 ⟨hx, decide_eq_true hctx⟩)
      · rw [length_addressed hfst, hbound]
        exact Nat.le_sub_of_add_le' hle
    · exact .inl (mem_msgList_release.2 (.inl hfree))

end Loop

/-- `bus_signal` is its loop, and the release of the original. -/
theorem busSignal_eq {major : Major} (hmajor : (sh.pool m).major = some major) :
    busSignal cfg nproc m sh =
      (signalRounds cfg nproc m (sh.publishList major)
        (sh.log (.relayed (sh.pool m).draw major (sh.publishList major)))).map fun sh' ↦
          (if sh.publishList major = [] then .errUnknown else .ok, sh'.release m) := by
  rw [busSignal, hmajor, Option.bind_some]
  by_cases hsubs : sh.publishList major = []
  · simp only [hsubs, if_true, signalRounds, Option.map_some]
  · simp only [hsubs, if_false]

/-- The rounds behind a run of `bus_signal` to its end. -/
theorem exists_rounds {major : Major} {r : MblueErrcode × Shared ι σ}
    (hmajor : (sh.pool m).major = some major) (hm : m ∉ sh.msgList)
    (hnodup : sh.msgList.Nodup) (h : busSignal cfg nproc m sh = some r) :
    ∃ pairs sh', pairs.map (·.1) = bound cfg nproc (sh.publishList major) ∧
      Rounds cfg m pairs sh sh' ∧ r.2 = sh'.release m ∧
      (sh.publishList major ≠ [] → r.1 = .ok) := by
  rw [busSignal_eq hmajor] at h
  obtain ⟨sh', hloop, rfl⟩ := Option.map_eq_some_iff.1 h
  -- the log of the history is all that the loop starts with
  generalize hlog : sh.log (.relayed (sh.pool m).draw major (sh.publishList major)) = sh₀ at hloop
  have hm₀ : m ∉ sh₀.msgList := hlog ▸ hm
  have hnodup₀ : sh₀.msgList.Nodup := hlog ▸ hnodup
  obtain ⟨pairs, hfst, hrounds⟩ := exists_signalRounds hm₀ hnodup₀ hloop
  subst hlog
  exact ⟨pairs, sh', hfst, ⟨hrounds.msgList_eq, hrounds.mq_eq, hrounds.pool_replica,
    hrounds.pool_other⟩, rfl, fun hne ↦ if_neg hne⟩

/-- `bus_signal` gets to its end if and only if there are messages for its replicas. -/
theorem busSignal_isSome_iff {major : Major} (hmajor : (sh.pool m).major = some major)
    (hcount : sh.count = sh.msgList.length) : (∃ r, busSignal cfg nproc m sh = some r) ↔
      (bound cfg nproc (sh.publishList major)).length ≤ sh.msgList.length := by
  rw [busSignal_eq hmajor]
  generalize hlog : sh.log (.relayed (sh.pool m).draw major (sh.publishList major)) = sh₀
  have hcount₀ : sh₀.count = sh₀.msgList.length := hlog ▸ hcount
  have hlist : sh₀.msgList = sh.msgList := by rw [← hlog]; rfl
  rw [← hlist, ← signalRounds_isSome_iff hcount₀]
  constructor
  · rintro ⟨r, hr⟩
    obtain ⟨sh', hloop, -⟩ := Option.map_eq_some_iff.1 hr
    exact ⟨sh', hloop⟩
  · rintro ⟨sh', hloop⟩
    rw [hloop]
    exact ⟨_, rfl⟩

/-- **When `bus_signal` does what was expected**, on a pool that is in order. -/
theorem distributes_iff_enough {major : Major} (hmajor : (sh.pool m).major = some major)
    (hm : m ∉ sh.msgList) (hnodup : sh.msgList.Nodup) (hcount : sh.count = sh.msgList.length) :
    (∃ r, busSignal cfg nproc m sh = some r ∧ Distributes cfg m (sh.publishList major) sh r) ↔
      Enough cfg nproc m (sh.publishList major) sh := by
  constructor
  · rintro ⟨⟨rc, sh₁⟩, hr, hdist⟩
    obtain ⟨pairs, sh', hfst, hrounds, rfl, hrc⟩ := exists_rounds hmajor hm hnodup hr
    exact hrounds.enough hfst hm hrc hdist
  · intro hen
    have hbound : bound cfg nproc (sh.publishList major) = sh.publishList major :=
      bound_eq_self fun ms hms ↦ by
        obtain ⟨t, hctx, hproc, -⟩ := hen.places ms hms
        exact ⟨t, hctx, hproc⟩
    obtain ⟨⟨rc, sh₁⟩, hr⟩ := (busSignal_isSome_iff hmajor hcount).2 (hbound.symm ▸ hen.messages)
    obtain ⟨pairs, sh', hfst, hrounds, rfl, -⟩ := exists_rounds hmajor hm hnodup hr
    exact ⟨_, hr, hrounds.distributes hfst hm hen⟩

/-! ### The same code as the machine's -/

/-- The bus task goes through the loop when it is not interrupted. -/
theorem run_signalRounds {th : ι → List (Cmd ι σ)} {i : ι} {tail : List (Cmd ι σ)}
    (hc : th i = .busSignalLoop m subs :: tail)
    (h : signalRounds cfg (fun _ ↦ true) m subs sh = some sh') :
    ∃ u, Run (system cfg).step (fun _ _ ↦ True) ⟨sh, th⟩ u ∧ u.shared = sh' ∧
      u.threads i = .release m :: tail := by
  induction subs generalizing sh th with
  | nil =>
    cases h
    exact ⟨_, run_runCmd .go hc rfl, rfl, Function.update_self _ _ _⟩
  | cons ms rest ih =>
    rw [signalRounds] at h
    cases hctx : cfg.context ms with
    | none =>
      have hskip : runCmd cfg i (.busSignalLoop m (ms :: rest)) .go sh =
          some (sh, [.busSignalLoop m rest]) := by
        rw [runCmd, runBusSignalLoop, hctx]
      rw [hctx] at h
      obtain ⟨u, hu, hshared, hthreads⟩ := ih (Function.update_self i _ th) h
      exact ⟨u, (run_runCmd .go hc hskip).trans hu, hshared, hthreads⟩
    | some t =>
      rw [hctx, Option.filter_some, if_pos rfl] at h
      dsimp only at h
      cases halloc : sh.alloc (replicate (sh.pool m) ms) with
      | none =>
        rw [halloc] at h
        cases h
      | some res =>
        obtain ⟨r, sh₁⟩ := res
        rw [halloc] at h
        have hcopy : runCmd cfg i (.busSignalLoop m (ms :: rest)) .go sh =
            some (sh₁.log (.replica (sh.pool m) (replicate (sh.pool m) ms)),
              [.post t r, .busSignalLoop m rest]) := by
          rw [runCmd, runBusSignalLoop, hctx]
          dsimp only
          rw [halloc]
          rfl
        have hfirst := run_runCmd .go hc hcopy
        obtain ⟨⟨sh₂, th₂⟩, hv, hshared₂, hthreads₂⟩ := run_templateMsgPost cfg (Function.update_self i
          ([.post t r, .busSignalLoop m rest] ++ tail) th)
        obtain rfl : sh₂ = _ := hshared₂
        obtain ⟨u, hu, hshared, hthreads⟩ := ih hthreads₂ h
        exact ⟨u, (hfirst.trans hv).trans hu, hshared, hthreads⟩

/-- **The bus task goes through `bus_signal`** when it is not interrupted. -/
theorem run_busSignal {s : State ι σ} {i : ι} {tail : List (Cmd ι σ)}
    {r : MblueErrcode × Shared ι σ} (hc : s.threads i = .busSignal m :: tail)
    (h : busSignal cfg (fun _ ↦ true) m s.shared = some r) :
    ∃ u, Run (system cfg).step (fun _ _ ↦ True) s u ∧ u.shared = r.2 ∧ u.threads i = tail := by
  obtain ⟨major, hmajor, -⟩ := Option.bind_eq_some_iff.1 h
  rw [busSignal, hmajor, Option.bind_some] at h
  dsimp only at h
  by_cases hsubs : s.shared.publishList major = []
  · rw [if_pos hsubs] at h
    cases h
    have hsignal : runCmd cfg i (.busSignal m) .go s.shared =
        some (s.shared.log (.relayed (s.shared.pool m).draw major (s.shared.publishList major)),
          [.userCode .log, .release m]) := by
      rw [runCmd, runBusSignal, hmajor, Option.map_some, if_pos hsubs]
    refine ⟨_, ((run_runCmd .go hc hsignal).trans (run_runCmd (.finish 0)
      (Function.update_self _ _ _) rfl)).trans (run_runCmd .go (Function.update_self _ _ _) rfl),
      rfl, Function.update_self _ _ _⟩
  · rw [if_neg hsubs] at h
    obtain ⟨sh', hloop, rfl⟩ := Option.map_eq_some_iff.1 h
    have hsignal : runCmd cfg i (.busSignal m) .go s.shared =
        some (s.shared.log (.relayed (s.shared.pool m).draw major (s.shared.publishList major)),
          [.busSignalLoop m (s.shared.publishList major)]) := by
      rw [runCmd, runBusSignal, hmajor, Option.map_some, if_neg hsubs]
    have hfirst := run_runCmd .go hc hsignal
    obtain ⟨u, hu, hshared, hthreads⟩ :=
      run_signalRounds (Function.update_self i _ s.threads) hloop
    have hlast : runCmd cfg i (.release m) .go u.shared = some (sh'.release m, []) := by
      rw [hshared]
      rfl
    exact ⟨_, (hfirst.trans hu).trans (run_runCmd .go hthreads hlast), rfl,
      Function.update_self _ _ _⟩

/-! ### In every reachable state -/

/-- **When `bus_signal` does what was expected**, in every state the system reaches. -/
theorem distributes_iff [Fintype ι] {s : State ι σ}
    (h : Run (system cfg).step (AtHead NoWrap) (initial cfg) s) {i : ι} {tail : List (Cmd ι σ)}
    (hc : s.threads i = .busSignal m :: tail) {major : Major}
    (hmajor : (s.shared.pool m).major = some major) (nproc : ι → Bool) :
    (∃ r, busSignal cfg nproc m s.shared = some r ∧
      Distributes cfg m (s.shared.publishList major) s.shared r) ↔
      Enough cfg nproc m (s.shared.publishList major) s.shared := by
  have hgood := (Split.of_noWrap h NoWrap.unseen id).1.good
  have hhead : (fuse cfg s).threads i = .busSignal m :: tail :=
    threads_fuse_of_ne hc fun _ _ heq ↦ by cases heq
  have hm := hgood.not_free (hhead ▸ List.mem_cons_self) rfl
  have hnodup : (fuse cfg s).shared.msgList.Nodup := hgood.sound.nodup
  have hcount : (fuse cfg s).shared.count = (fuse cfg s).shared.msgList.length :=
    hgood.sound.count_eq
  rw [fuse_msgList] at hm hnodup hcount
  rw [fuse_count] at hcount
  exact distributes_iff_enough hmajor hm hnodup hcount

/-- The major number of the broadcasts in the examples. -/
def sampleMajor : Major := ⟨3, by decide⟩

/-- The log service subscribes, task `2` sends these signals, and the bus takes the last one. -/
def subscribeAndSend (signals : List (Api (Fin 3) Bool)) : List (Fin 3 × Choice (Fin 3) Bool) :=
  [(0, .finish 0), (2, .api (.mblueSubscribe false sampleMajor)), (2, .go), (2, .go), (2, .go),
    (2, .go), (0, .go), (0, .go), (0, .go), (0, .go)] ++
  signals.flatMap (fun f ↦ [(2, .api f), (2, .go), (2, .go), (2, .go), (2, .go)]) ++
  [(0, .go), (0, .go)]

/-- The subscriber gets its replica when its queue is empty. -/
theorem distributes_first : ∃ s, exec (system (.small 4 [] [])).step (AtHead NoWrap)
      (initial (.small 4 [] [])) (subscribeAndSend [.broadcastSignal sampleMajor 0 0]) = some s ∧
    ∃ r, busSignal (.small 4 [] []) (fun _ ↦ true) 1 s.shared = some r ∧
      Distributes (.small 4 [] []) 1 (s.shared.publishList sampleMajor) s.shared r := by
  obtain ⟨s, hs, hvalues⟩ := Option.map_eq_some_iff.1 (show
    (exec (system (.small 4 [] [])).step (AtHead NoWrap) (initial (.small 4 [] []))
      (subscribeAndSend [.broadcastSignal sampleMajor 0 0])).map
      (fun s ↦ (s.threads 0, (s.shared.pool 1).major, (s.shared.pool 1).ref,
        s.shared.publishList sampleMajor, s.shared.msgList.length, s.shared.mq 1)) =
    some ([.busSignal 1, .templateProc], some sampleMajor, 0, [false], 31, []) from rfl)
  simp only [Prod.mk.injEq] at hvalues
  obtain ⟨hhead, hmajor, href, hsubs, hfree, hmq⟩ := hvalues
  refine ⟨s, hs, (distributes_iff (run_exec hs) hhead hmajor _).2 ⟨?_, ?_, fun ms hms ↦ ?_⟩⟩
  · rw [href]
    decide
  · rw [hsubs, hfree]
    decide
  · rw [hsubs, List.mem_singleton] at hms
    subst hms
    refine ⟨1, rfl, rfl, ?_⟩
    rw [hsubs, hmq]
    decide

/-- A second signal finds the subscriber's queue full: its replica is lost with `MBLUE_OK`. -/
theorem not_distributes_full : ∃ s, exec (system (.small 1 [] [])).step (AtHead NoWrap)
      (initial (.small 1 [] [])) (subscribeAndSend
        [.targetSignal .null sampleMajor 0 (some false) 0 none,
          .broadcastSignal sampleMajor 0 0]) = some s ∧
    s.threads 0 = [.busSignal 2, .templateProc] ∧
    ¬∃ r, busSignal (.small 1 [] []) (fun _ ↦ true) 2 s.shared = some r ∧
      Distributes (.small 1 [] []) 2 (s.shared.publishList sampleMajor) s.shared r := by
  refine ⟨_, rfl, rfl, ?_⟩
  rintro ⟨r, hr, hdist⟩
  obtain ⟨t, hctx, hcount⟩ := hdist.all_of_ok (by cases hr; rfl) false (List.mem_singleton_self _)
  obtain rfl : 1 = t := Option.some.inj hctx
  cases hr
  exact absurd hcount (by decide)

end Mblue
