import Mblue.Library.RefPool
import Mblue.System.Effects

/-!
# Who uses a message

Between `send_message` and its release a message is in one place at a time: a task's queue, or a
command that carries it. Besides, entries of the call lists refer to requests. `active` and
`entries` count the two kinds of users, which are those of the reference-counted pool in
`Library/RefPool.lean`; `manager` is the pool's side, the message list of `mblue_message.c`.

Most commands leave all messages where they are. `Move` lists what the others do, in a few cases
that forget everything but the messages: `move_of_effect` sorts the effects into them, and the
lemmas after it say once for each case what happens to the users (`active_expand`, `entries_link`,
`entries_unlink`) and to the contents of the messages in use (`Move.header_eq`, `Move.dst_eq`,
`Move.origin`).
-/

namespace Mblue

variable {ι σ : Type}

/-! ### The users of a message -/

/-- The message a command carries. -/
def Cmd.msg? : Cmd ι σ → Option MsgId
  | .post _ m | .handleSubscribe m | .busSignal m | .busSignalLoop m _ | .busCall m
  | .busCallReturn m | .release m | .signalHandler _ m | .ipcHandler _ m | .finish m
  | .userCode (.signal _ m) | .userCode (.service _ m _ _) => some m
  | _ => none

/-- The messages a list of commands carries. -/
def carried (cs : List (Cmd ι σ)) : List MsgId := cs.filterMap Cmd.msg?

@[simp] theorem carried_nil : carried ([] : List (Cmd ι σ)) = [] := rfl

@[simp] theorem carried_append (cs ds : List (Cmd ι σ)) :
    carried (cs ++ ds) = carried cs ++ carried ds := List.filterMap_append

section Users

variable [Fintype ι] (s : State ι σ)

/-- How often a message is queued. -/
def queued (sh : Shared ι σ) (m : MsgId) : ℕ := ∑ t, (sh.mq t).count m

/-- How many queues and commands hold a message. -/
def active (m : MsgId) : ℕ := mentions Cmd.msg? s.threads m + queued s.shared m

/-- How many entries of the call lists refer to a message. -/
def entries (sh : Shared ι σ) (m : MsgId) : ℕ :=
  ∑ major, ((sh.callList major).map (·.msg)).count m

variable {s}

theorem active_pos_of_mem {i : ι} {c : Cmd ι σ} {m : MsgId} (hc : c ∈ s.threads i)
    (hm : c.msg? = some m) : 0 < active s m := by
  have hpos := mentions_pos hc hm
  unfold active
  omega

theorem active_pos_of_mem_mq {t : ι} {m : MsgId} (h : m ∈ s.shared.mq t) : 0 < active s m := by
  have hle := le_sum s.shared.mq (fun l ↦ l.count m) t
  have hpos := List.count_pos_iff.2 h
  unfold active queued
  omega

omit [Fintype ι] in
theorem entries_pos_of_mem {sh : Shared ι σ} {major : Major} {e : PendingCall}
    (h : e ∈ sh.callList major) : 0 < entries sh e.msg := by
  have hle := le_sum sh.callList (fun l ↦ (l.map (·.msg)).count e.msg) major
  have hpos := List.count_pos_iff.2 (List.mem_map_of_mem (f := (·.msg)) h)
  unfold entries
  omega

omit [Fintype ι] in
theorem exists_of_entries_pos {sh : Shared ι σ} {m : MsgId} (h : 0 < entries sh m) :
    ∃ major, ∃ e ∈ sh.callList major, e.msg = m := by
  by_contra hne
  refine absurd (Finset.sum_eq_zero fun major _ ↦ ?_) (Nat.pos_iff_ne_zero.1 h)
  refine List.count_eq_zero.2 fun hmem ↦ ?_
  obtain ⟨e, he, heq⟩ := List.mem_map.1 hmem
  exact hne ⟨major, e, he, heq⟩

end Users

/-! ### The pool -/

/-- The message list as a pool manager. -/
def Shared.manager (sh : Shared ι σ) : PoolManager MsgId where
  free := sh.msgList
  count := sh.count
  ref := fun m ↦ (sh.pool m).ref.val

theorem manager_release (sh : Shared ι σ) (m : MsgId) :
    (sh.release m).manager = sh.manager.release m := by
  have hval := putMblueMessage_val (sh.pool m).ref
  have href : (fun n ↦ (Function.update sh.pool m
      { sh.pool m with ref := putMblueMessage (sh.pool m).ref } n).ref.val) =
      Function.update (fun n ↦ (sh.pool n).ref.val) m ((sh.pool m).ref.val - 1) := by
    funext n
    by_cases hn : n = m
    · rw [hn, Function.update_self, Function.update_self, hval]
    · rw [Function.update_of_ne hn, Function.update_of_ne hn]
  have hzero : putMblueMessage (sh.pool m).ref = 0 ↔ (sh.pool m).ref.val - 1 = 0 := by
    rw [← hval]
    exact Fin.ext_iff
  unfold Shared.release PoolManager.release Shared.manager
  simp only
  by_cases h : (sh.pool m).ref.val - 1 = 0
  · rw [if_pos (hzero.2 h), if_pos h]
    simp only [href]
  · rw [if_neg (mt hzero.1 h), if_neg h]
    simp only [href]

theorem manager_forward {sh : Shared ι σ} {m : MsgId} (ms : σ)
    (hwrap : (sh.pool m).ref.val ≠ 65535) :
    (sh.forward m ms).manager = sh.manager.retain m := by
  unfold Shared.forward PoolManager.retain Shared.manager
  simp only [PoolManager.mk.injEq, true_and]
  funext n
  by_cases hn : n = m
  · rw [hn, Function.update_self, Function.update_self]
    exact getMblueMessage_val hwrap
  · rw [Function.update_of_ne hn, Function.update_of_ne hn]

/-- What `mblue_message_alloc` does, when it succeeds. -/
theorem alloc_eq_some {sh sh' : Shared ι σ} {content : Message ι σ} {m : MsgId}
    (h : sh.alloc content = some (m, sh')) :
    ∃ rest, sh.msgList = m :: rest ∧ sh' = { sh with
      count := sh.count - 1, msgList := rest, pool := Function.update sh.pool m content } := by
  unfold Shared.alloc at h
  split at h
  · next hlist =>
    split at h
    · cases h
    · cases h
      exact ⟨_, hlist, rfl⟩
  · cases h

theorem manager_alloc {sh sh' : Shared ι σ} {content : Message ι σ} {m : MsgId}
    (h : sh.alloc content = some (m, sh')) :
    ∃ rest, sh.msgList = m :: rest ∧ sh'.manager = sh.manager.take m rest content.ref.val := by
  obtain ⟨rest, hlist, rfl⟩ := alloc_eq_some h
  refine ⟨rest, hlist, ?_⟩
  unfold PoolManager.take Shared.manager
  simp only [PoolManager.mk.injEq, true_and]
  funext n
  by_cases hn : n = m
  · rw [hn, Function.update_self, Function.update_self]
  · rw [Function.update_of_ne hn, Function.update_of_ne hn]

theorem mq_release (sh : Shared ι σ) (m : MsgId) : (sh.release m).mq = sh.mq := by
  unfold Shared.release
  dsimp only
  split <;> rfl

theorem pool_release (sh : Shared ι σ) (m : MsgId) : (sh.release m).pool =
    Function.update sh.pool m { sh.pool m with ref := putMblueMessage (sh.pool m).ref } := by
  unfold Shared.release
  dsimp only
  split <;> rfl

theorem mem_msgList_release {sh : Shared ι σ} {m n : MsgId} : n ∈ (sh.release m).msgList ↔
    n ∈ sh.msgList ∨ n = m ∧ putMblueMessage (sh.pool m).ref = 0 := by
  unfold Shared.release
  dsimp only
  split
  · next h => simp only [List.mem_append, List.mem_singleton, h, and_true]
  · next h => simp only [h, and_false, or_false]

theorem pool_forward (sh : Shared ι σ) (m : MsgId) (ms : σ) : (sh.forward m ms).pool =
    Function.update sh.pool m
      { sh.pool m with ref := getMblueMessage (sh.pool m).ref, dst := some ms } := rfl

theorem callList_release (sh : Shared ι σ) (m : MsgId) :
    (sh.release m).callList = sh.callList := by
  unfold Shared.release
  dsimp only
  split <;> rfl

/-- The entry `bus_call` makes for a request refers to it. -/
theorem pendingCall_msg {msg : Message ι σ} {m : MsgId} {e : PendingCall}
    (h : pendingCall msg m = some e) : e.msg = m := by
  unfold pendingCall at h
  split at h <;> cases h <;> rfl

/-! ### Moves -/

/-- Two states that agree on the messages and where they are. -/
structure SameMessages (sh sh' : Shared ι σ) : Prop where
  count_eq : sh'.count = sh.count
  msgList_eq : sh'.msgList = sh.msgList
  pool_eq : sh'.pool = sh.pool
  mq_eq : sh'.mq = sh.mq
  callList_eq : sh'.callList = sh.callList

@[refl] theorem SameMessages.refl (sh : Shared ι σ) : SameMessages sh sh :=
  ⟨rfl, rfl, rfl, rfl, rfl⟩

theorem SameMessages.manager_eq {sh sh' : Shared ι σ} (h : SameMessages sh sh') :
    sh'.manager = sh.manager := by
  rw [Shared.manager, Shared.manager, h.count_eq, h.msgList_eq, h.pool_eq]

section Moves

theorem sameMessages_callApi (cfg : Config ι σ) (i : ι) (sh : Shared ι σ) (f : Api ι σ) :
    SameMessages sh (callApi cfg i sh f).1 := by
  cases f with
  | targetSignal source major minor dest data extra =>
    unfold callApi
    dsimp only
    split <;> exact ⟨rfl, rfl, rfl, rfl, rfl⟩
  | _ => exact ⟨rfl, rfl, rfl, rfl, rfl⟩

theorem carried_callApi (cfg : Config ι σ) (i : ι) (sh : Shared ι σ) (f : Api ι σ) :
    carried (callApi cfg i sh f).2 = [] := by
  cases f <;> rfl

variable [DecidableEq ι] [DecidableEq σ]

/-- What a command writes into the message it allocates: a message of its own or a replica. -/
def Makes (cfg : Config ι σ) (sh : Shared ι σ) (c : Cmd ι σ) (content : Message ι σ) : Prop :=
  (∃ a, c = .send a ∧ content = initMessage cfg a) ∨
    ∃ n ms subs, c = .busSignalLoop n (ms :: subs) ∧ content = replicate (sh.pool n) ms

omit [DecidableEq ι] [DecidableEq σ] in
theorem type_initMessage (cfg : Config ι σ) (a : SendArgs ι σ) :
    (initMessage cfg a).type = some a.type := getType_mkCode _ _ _

omit [DecidableEq ι] [DecidableEq σ] in
/-- A message made for the arguments carries the return cell of a synchronous call only. -/
theorem out_of_initMessage {cfg : Config ι σ} {a : SendArgs ι σ} {x : CellId}
    (h : (initMessage cfg a).aux = .ipcReturn x) : a.type = .syncCall ∧ a.out = some x := by
  have haux : a.aux = .ipcReturn x := h
  unfold SendArgs.aux at haux
  split at haux
  · next htype =>
    cases hout : a.out <;> rw [hout] at haux <;> cases haux
    exact ⟨htype, rfl⟩
  · cases hpn : a.pn <;> rw [hpn] at haux <;> cases haux
  · cases hextra : a.extra <;> rw [hextra] at haux <;> cases haux

/-- What a command does to the messages. -/
inductive Move (cfg : Config ι σ) (i : ι) :
    Cmd ι σ → Shared ι σ → Shared ι σ → List (Cmd ι σ) → Prop
  /-- Nothing; the message it carries, if any, is passed on. -/
  | quiet {c sh sh' cs} (hsame : SameMessages sh sh') (hcarried : carried cs = carried [c]) :
      Move cfg i c sh sh' cs
  /-- A message is taken from the queue. -/
  | removed {sh m rest ms type handler} (hmq : sh.mq i = m :: rest)
      (hdst : (sh.pool m).dst = some ms) (htype : (sh.pool m).type = some type)
      (hhandler : getHandler cfg ms m type = some handler) :
      Move cfg i .remove sh { sh with mq := Function.update sh.mq i rest } [handler]
  /-- A free message is allocated, to be posted to its destination's task. -/
  | taken {c sh sh₁ sh' cs m content} (hmakes : Makes cfg sh c content)
      (halloc : sh.alloc content = some (m, sh₁)) (hsame : SameMessages sh₁ sh')
      (hcarried : carried cs = m :: carried [c]) : Move cfg i c sh sh' cs
  /-- A message is put into a queue. -/
  | posted {t m sh} (hroom : (sh.mq t).length < cfg.capacity t) :
      Move cfg i (.post t m) sh { sh with mq := Function.update sh.mq t (sh.mq t ++ [m]) }
        [.semPost t]
  /-- A message is forgotten without being released. -/
  | lost {c sh cs m} (hmsg : carried [c] = [m]) (hcarried : carried cs = []) : Move cfg i c sh sh cs
  /-- A message is released by the command that carries it. -/
  | dropped {c sh cs m} (hc : c = .release m ∨ c = .handleSubscribe m)
      (hcarried : carried cs = []) : Move cfg i c sh (sh.release m) cs
  /-- A request is passed on without an entry. -/
  | forwarded {m sh major ms t} (hmajor : (sh.pool m).major = some major)
      (hnode : cfg.node major = some ms) (hctx : cfg.context ms = some t)
      (hentry : pendingCall (sh.pool m) m = none) :
      Move cfg i (.busCall m) sh (sh.forward m ms) [.post t m]
  /-- A request gets an entry and is passed on. -/
  | linked {m sh major ms t e} (hmajor : (sh.pool m).major = some major)
      (hnode : cfg.node major = some ms) (hctx : cfg.context ms = some t)
      (hentry : pendingCall (sh.pool m) m = some e) :
      Move cfg i (.busCall m) sh
        (((sh.link major e).log (.linked major e (sh.pool m).seq)).forward m ms) [.post t m]
  /-- A request is released for its entry, which goes away. -/
  | completed {major e sh} :
      Move cfg i (.complete major e) sh
        (((sh.release e.msg).unlink major e).log (.unlinked major e)) []

omit [DecidableEq ι] in
theorem carried_getHandler {cfg : Config ι σ} {ms : σ} {m : MsgId} {type : MessageType}
    {handler : Cmd ι σ} (h : getHandler cfg ms m type = some handler) : carried [handler] = [m] := by
  cases handles_of_getHandler h <;> rfl

/-- **What an effect does to the messages.** -/
theorem move_of_effect {cfg : Config ι σ} {i : ι} {c : Cmd ι σ} {a : Choice ι σ}
    {sh sh' : Shared ι σ} {cs : List (Cmd ι σ)} (h : Effect cfg i c a sh sh' cs) :
    Move cfg i c sh sh' cs := by
  cases h with
  | removed hmq hdst htype hhandler => exact .removed hmq hdst htype hhandler
  | userCall hmay =>
    refine .quiet (sameMessages_callApi cfg i sh _) ?_
    rw [carried_append, carried_callApi, List.nil_append]
  | sendDone halloc => exact .taken (.inl ⟨_, rfl, rfl⟩) halloc (.refl _) rfl
  | postFull => exact .lost rfl rfl
  | postDone hroom => exact .posted hroom
  | tpendTaken hsem =>
    refine .quiet ?_ rfl
    rename_i c _ _
    cases c <;> exact ⟨rfl, rfl, rfl, rfl, rfl⟩
  | subscribeReleased => exact .dropped (.inr rfl) rfl
  | loopReplicated hctx halloc =>
    exact .taken (.inr ⟨_, _, _, rfl, rfl⟩) halloc ⟨rfl, rfl, rfl, rfl, rfl⟩ rfl
  | callNoSegment => exact .lost rfl rfl
  | callNoEntry hmajor hnode hctx hentry => exact .forwarded hmajor hnode hctx hentry
  | callNoMemory => exact .lost rfl rfl
  | callLinked hmajor hnode hctx hentry => exact .linked hmajor hnode hctx hentry
  | completed => exact .completed
  | released => exact .dropped (.inl rfl) rfl
  | requestUndecodable => exact .lost rfl rfl
  | _ => exact .quiet ⟨rfl, rfl, rfl, rfl, rfl⟩ rfl

end Moves

/-! ### What a move does to the users -/

section Accounting

variable [Fintype ι] [DecidableEq ι] {s : State ι σ} {i : ι} {c : Cmd ι σ}
  {rest cs : List (Cmd ι σ)} {sh' : Shared ι σ} {m : MsgId}

/-- The accounting equation for the messages. -/
theorem active_expand (hc : s.threads i = c :: rest) (sh' : Shared ι σ) (cs : List (Cmd ι σ))
    (n : MsgId) :
    active ⟨sh', Function.update s.threads i (cs ++ rest)⟩ n +
        ((carried [c]).count n + queued s.shared n) =
      active s n + ((carried cs).count n + queued sh' n) := by
  have h := mentions_expand Cmd.msg? hc cs n
  unfold active carried
  dsimp only
  omega

/-- The messages are passed on. -/
theorem active_pass (hc : s.threads i = c :: rest) (sh' : Shared ι σ) (hcarried : carried cs = carried [c])
    (hmq : sh'.mq = s.shared.mq) :
    active ⟨sh', Function.update s.threads i (cs ++ rest)⟩ = active s := by
  funext n
  have h := active_expand hc sh' cs n
  rw [hcarried, queued, queued, hmq] at h
  omega

/-- A message is carried that was not. -/
theorem active_take (hc : s.threads i = c :: rest) (hcarried : carried cs = m :: carried [c])
    (hmq : sh'.mq = s.shared.mq) :
    active ⟨sh', Function.update s.threads i (cs ++ rest)⟩ = active s + Pi.single m 1 := by
  funext n
  have h := active_expand hc sh' cs n
  rw [hcarried, queued, queued, hmq, List.count_cons] at h
  rw [Pi.add_apply, Pi.single_apply]
  by_cases hn : n = m
  · rw [if_pos (beq_iff_eq.2 hn.symm)] at h
    rw [if_pos hn]
    omega
  · rw [if_neg (fun heq ↦ hn (beq_iff_eq.1 heq).symm)] at h
    rw [if_neg hn]
    omega

/-- A message is no longer carried. -/
theorem active_drop (hc : s.threads i = c :: rest) (hmsg : carried [c] = [m])
    (hcarried : carried cs = []) (hmq : sh'.mq = s.shared.mq) :
    active ⟨sh', Function.update s.threads i (cs ++ rest)⟩ + Pi.single m 1 = active s := by
  funext n
  have h := active_expand hc sh' cs n
  rw [hmsg, hcarried, queued, queued, hmq, List.count_singleton, List.count_nil] at h
  rw [Pi.add_apply, Pi.single_apply]
  by_cases hn : n = m
  · rw [if_pos (beq_iff_eq.2 hn.symm)] at h
    rw [if_pos hn]
    omega
  · rw [if_neg (fun heq ↦ hn (beq_iff_eq.1 heq).symm)] at h
    rw [if_neg hn]
    omega

theorem active_removed {tail : List MsgId} {handler : Cmd ι σ} (hc : s.threads i = .remove :: rest)
    (hmq : s.shared.mq i = m :: tail) (hcarried : carried [handler] = [m]) :
    active ⟨{ s.shared with mq := Function.update s.shared.mq i tail },
      Function.update s.threads i ([handler] ++ rest)⟩ = active s := by
  funext n
  have h := active_expand hc { s.shared with mq := Function.update s.shared.mq i tail } [handler] n
  have hq := sum_update s.shared.mq (fun l ↦ l.count n) i tail
  simp only [hmq, List.count_cons] at hq
  have hzero : (carried [(.remove : Cmd ι σ)]).count n = 0 := rfl
  rw [hcarried, hzero, queued, queued, List.count_singleton] at h
  dsimp only at h ⊢
  omega

theorem active_posted {t : ι} (hc : s.threads i = .post t m :: rest) :
    active ⟨{ s.shared with mq := Function.update s.shared.mq t (s.shared.mq t ++ [m]) },
      Function.update s.threads i ([.semPost t] ++ rest)⟩ = active s := by
  funext n
  have h := active_expand hc
    { s.shared with mq := Function.update s.shared.mq t (s.shared.mq t ++ [m]) } [.semPost t] n
  have hq := sum_update s.shared.mq (fun l ↦ l.count n) t (s.shared.mq t ++ [m])
  simp only [List.count_append] at hq
  have hone : (carried [(.post t m : Cmd ι σ)]).count n = [m].count n := rfl
  have hzero : (carried [(.semPost t : Cmd ι σ)]).count n = 0 := rfl
  rw [hone, hzero, queued, queued] at h
  dsimp only at h ⊢
  omega

omit [Fintype ι] [DecidableEq ι] in
theorem entries_congr {sh sh' : Shared ι σ} (h : sh'.callList = sh.callList) :
    entries sh' = entries sh := by
  funext n
  rw [entries, entries, h]

omit [Fintype ι] [DecidableEq ι] in
theorem entries_release (sh : Shared ι σ) (m : MsgId) : entries (sh.release m) = entries sh :=
  entries_congr (callList_release sh m)

omit [Fintype ι] [DecidableEq ι] in
theorem entries_link (sh : Shared ι σ) (major : Major) (e : PendingCall) :
    entries (sh.link major e) = entries sh + Pi.single e.msg 1 := by
  funext n
  have h := sum_update sh.callList (fun l ↦ (l.map (·.msg)).count n) major
    (sh.callList major ++ [e])
  simp only [List.map_append, List.count_append, List.map_cons, List.map_nil,
    List.count_singleton] at h
  have hind : (if e.msg == n then 1 else 0) = (Pi.single e.msg 1 : MsgId → ℕ) n := by
    rw [Pi.single_apply]
    exact if_congr (beq_iff_eq.trans eq_comm) rfl rfl
  rw [hind] at h
  unfold entries Shared.link
  rw [Pi.add_apply]
  dsimp only
  omega

omit [Fintype ι] [DecidableEq ι] in
theorem entries_unlink {sh : Shared ι σ} {major : Major} {e : PendingCall}
    (he : e ∈ sh.callList major) :
    entries (sh.unlink major e) + Pi.single e.msg 1 = entries sh := by
  funext n
  have h := sum_update sh.callList (fun l ↦ (l.map (·.msg)).count n) major
    ((sh.callList major).erase e)
  have hperm := ((List.perm_cons_erase he).map (·.msg)).count_eq n
  rw [List.map_cons, List.count_cons] at hperm
  have hind : (if e.msg == n then 1 else 0) = (Pi.single e.msg 1 : MsgId → ℕ) n := by
    rw [Pi.single_apply]
    exact if_congr (beq_iff_eq.trans eq_comm) rfl rfl
  rw [hind] at hperm
  unfold entries Shared.unlink
  rw [Pi.add_apply]
  dsimp only at h ⊢
  omega

omit [Fintype ι] [DecidableEq ι] in
/-- The manager and the entries when `bus_call` links an entry and passes the request on. -/
theorem manager_linked {sh : Shared ι σ} {m : MsgId} (hwrap : (sh.pool m).ref.val ≠ 65535)
    (major : Major) (e : PendingCall) (event : Event ι σ) (ms : σ) :
    (((sh.link major e).log event).forward m ms).manager = sh.manager.retain m :=
  manager_forward ms hwrap

omit [Fintype ι] [DecidableEq ι] in
theorem entries_linked {sh : Shared ι σ} {m : MsgId} {e : PendingCall} (hmsg : e.msg = m)
    (major : Major) (event : Event ι σ) (ms : σ) :
    entries (((sh.link major e).log event).forward m ms) = entries sh + Pi.single m 1 := by
  rw [← hmsg, ← entries_link sh major e]
  exact entries_congr rfl

omit [Fintype ι] [DecidableEq ι] in
/-- The manager and the entries when a match is completed. -/
theorem manager_completed (sh : Shared ι σ) (major : Major) (e : PendingCall) (event : Event ι σ) :
    (((sh.release e.msg).unlink major e).log event).manager = sh.manager.release e.msg :=
  manager_release sh e.msg

omit [Fintype ι] [DecidableEq ι] in
theorem entries_completed {sh : Shared ι σ} {major : Major} {e : PendingCall}
    (he : e ∈ sh.callList major) (event : Event ι σ) :
    entries (((sh.release e.msg).unlink major e).log event) + Pi.single e.msg 1 = entries sh := by
  have hmem : e ∈ (sh.release e.msg).callList major := by
    rw [callList_release]
    exact he
  rw [← entries_release sh e.msg, ← entries_unlink hmem]
  rfl

end Accounting

/-! ### What a move does to the contents -/

/-- What is written into a message once: everything but its counter and its destination. -/
def Message.header (msg : Message ι σ) : Message ι σ := { msg with ref := 0, dst := none }

namespace Message

variable {msg msg' : Message ι σ}

theorem seq_eq (h : msg'.header = msg.header) : msg'.seq = msg.seq := by
  have heq := congrArg seq h
  exact heq

theorem code_eq (h : msg'.header = msg.header) : msg'.code = msg.code := by
  have heq := congrArg code h
  exact heq

theorem src_eq (h : msg'.header = msg.header) : msg'.src = msg.src := by
  have heq := congrArg src h
  exact heq

theorem aux_eq (h : msg'.header = msg.header) : msg'.aux = msg.aux := by
  have heq := congrArg aux h
  exact heq

theorem draw_eq (h : msg'.header = msg.header) : msg'.draw = msg.draw := by
  have heq := congrArg draw h
  exact heq

theorem smartPayload_eq (h : msg'.header = msg.header) : msg'.smartPayload = msg.smartPayload := by
  have heq := congrArg smartPayload h
  exact heq

theorem type_eq (h : msg'.header = msg.header) : msg'.type = msg.type :=
  congrArg getType (code_eq h)

theorem major_eq (h : msg'.header = msg.header) : msg'.major = msg.major :=
  congrArg getMajor (code_eq h)

theorem isCall_eq (h : msg'.header = msg.header) : msg'.isCall = msg.isCall := by
  rw [isCall, isCall, type_eq h]

theorem isCall_of_type {type : MessageType} (h : msg.type = some type) :
    msg.isCall = type.isCall := by
  rw [isCall, h, Option.any_some]

theorem pendingCall_eq {m : MsgId} (h : msg'.header = msg.header) :
    pendingCall msg' m = pendingCall msg m := by
  unfold pendingCall
  rw [type_eq h, aux_eq h]

end Message

section Contents

variable [DecidableEq ι] [DecidableEq σ] {cfg : Config ι σ} {i : ι} {c : Cmd ι σ}
  {sh sh' : Shared ι σ} {cs : List (Cmd ι σ)} {m : MsgId}

omit [DecidableEq ι] [DecidableEq σ] in
theorem header_release (sh : Shared ι σ) (m n : MsgId) :
    ((sh.release m).pool n).header = (sh.pool n).header := by
  rw [pool_release]
  by_cases h : n = m
  · rw [h, Function.update_self]
    rfl
  · rw [Function.update_of_ne h]

omit [DecidableEq ι] [DecidableEq σ] in
theorem dst_release (sh : Shared ι σ) (m n : MsgId) :
    ((sh.release m).pool n).dst = (sh.pool n).dst := by
  rw [pool_release]
  by_cases h : n = m
  · rw [h, Function.update_self]
  · rw [Function.update_of_ne h]

/-- **What is in use keeps its header.** -/
theorem Move.header_eq (h : Move cfg i c sh sh' cs) (hm : m ∉ sh.msgList) :
    (sh'.pool m).header = (sh.pool m).header := by
  have hforward : ∀ n ms, ((sh.forward n ms).pool m).header = (sh.pool m).header := fun n ms ↦ by
    rw [pool_forward]
    by_cases hn : m = n
    · rw [hn, Function.update_self]
      rfl
    · rw [Function.update_of_ne hn]
  cases h with
  | quiet hsame _ => rw [hsame.pool_eq]
  | taken _ halloc hsame _ =>
    obtain ⟨rest, hlist, rfl⟩ := alloc_eq_some halloc
    have hne : m ≠ _ := fun heq ↦ hm (hlist ▸ heq ▸ List.mem_cons_self)
    rw [hsame.pool_eq]
    dsimp only
    rw [Function.update_of_ne hne]
  | dropped => exact header_release sh _ m
  | forwarded => exact hforward _ _
  | linked => exact hforward _ _
  | completed => exact header_release sh _ m
  | _ => rfl

/-- Only `bus_call` changes the destination of a message in use. -/
theorem Move.dst_eq (h : Move cfg i c sh sh' cs) (hm : m ∉ sh.msgList) (hc : c ≠ .busCall m) :
    (sh'.pool m).dst = (sh.pool m).dst := by
  have hforward : ∀ n ms, c = .busCall n → ((sh.forward n ms).pool m).dst = (sh.pool m).dst :=
    fun n ms hn ↦ by
      have hne : m ≠ n := fun heq ↦ hc (heq ▸ hn)
      rw [pool_forward, Function.update_of_ne hne]
  cases h with
  | quiet hsame _ => rw [hsame.pool_eq]
  | taken _ halloc hsame _ =>
    obtain ⟨rest, hlist, rfl⟩ := alloc_eq_some halloc
    have hne : m ≠ _ := fun heq ↦ hm (hlist ▸ heq ▸ List.mem_cons_self)
    rw [hsame.pool_eq]
    dsimp only
    rw [Function.update_of_ne hne]
  | dropped => exact dst_release sh _ m
  | forwarded => exact hforward _ _ rfl
  | linked => exact hforward _ _ rfl
  | completed => exact dst_release sh _ m
  | _ => rfl

/-- **Where a message in use comes from**: it was in use before, or the command has just written
it. -/
theorem Move.origin (h : Move cfg i c sh sh' cs) (hm : m ∉ sh'.msgList) :
    m ∉ sh.msgList ∨ Makes cfg sh c (sh'.pool m) ∧ carried cs = m :: carried [c] := by
  have hrelease : ∀ n, m ∉ (sh.release n).msgList → m ∉ sh.msgList := fun n hn hmem ↦
    hn (mem_msgList_release.2 (.inl hmem))
  cases h with
  | quiet hsame _ => exact .inl (hsame.msgList_eq ▸ hm)
  | taken hmakes halloc hsame hcarried =>
    rename_i sh₁ n content
    obtain ⟨rest, hlist, rfl⟩ := alloc_eq_some halloc
    rw [hsame.msgList_eq] at hm
    by_cases hmn : m = n
    · subst hmn
      rw [hsame.pool_eq]
      dsimp only
      rw [Function.update_self]
      exact .inr ⟨hmakes, hcarried⟩
    · refine .inl fun hmem ↦ ?_
      rw [hlist, List.mem_cons] at hmem
      exact hmem.elim hmn hm
  | dropped => exact .inl (hrelease _ hm)
  | completed => exact .inl (hrelease _ hm)
  | _ => exact .inl hm

/-- **Where an entry comes from**: it was there, or `bus_call` has just linked it. -/
theorem Move.entry_origin (h : Move cfg i c sh sh' cs) {major : Major} {e : PendingCall}
    (he : e ∈ sh'.callList major) : e ∈ sh.callList major ∨
      c = .busCall e.msg ∧ (sh.pool e.msg).major = some major ∧
        pendingCall (sh.pool e.msg) e.msg = some e := by
  cases h with
  | quiet hsame _ => exact .inl (hsame.callList_eq ▸ he)
  | taken _ halloc hsame _ =>
    obtain ⟨_, -, rfl⟩ := alloc_eq_some halloc
    exact .inl (hsame.callList_eq ▸ he)
  | dropped => exact .inl (callList_release sh _ ▸ he)
  | linked hmajor hnode hctx hentry =>
    rename_i m major' ms t e'
    have hmem : e ∈ Function.update sh.callList major' (sh.callList major' ++ [e']) major := he
    by_cases hm : major = major'
    · rw [hm, Function.update_self, List.mem_append, List.mem_singleton] at hmem
      rcases hmem with hmem | rfl
      · exact .inl (hm ▸ hmem)
      · obtain rfl := pendingCall_msg hentry
        exact .inr ⟨rfl, hm ▸ hmajor, hentry⟩
    · rw [Function.update_of_ne hm] at hmem
      exact .inl hmem
  | completed =>
    rename_i major' e'
    have hmem : e ∈ Function.update (sh.release e'.msg).callList major'
        (((sh.release e'.msg).callList major').erase e') major := he
    rw [callList_release] at hmem
    by_cases hm : major = major'
    · rw [hm, Function.update_self] at hmem
      exact .inl (hm ▸ List.mem_of_mem_erase hmem)
    · rw [Function.update_of_ne hm] at hmem
      exact .inl hmem
  | _ => exact .inl he

/-- An entry stays until its match is completed. -/
theorem Move.entry_kept (h : Move cfg i c sh sh' cs) {major : Major} {e : PendingCall}
    (he : e ∈ sh.callList major) (hc : c ≠ .complete major e) : e ∈ sh'.callList major := by
  cases h with
  | quiet hsame _ => exact hsame.callList_eq ▸ he
  | taken _ halloc hsame _ =>
    obtain ⟨_, -, rfl⟩ := alloc_eq_some halloc
    exact hsame.callList_eq ▸ he
  | dropped => exact callList_release sh _ ▸ he
  | linked hmajor hnode hctx hentry =>
    rename_i m major' ms t e'
    show e ∈ Function.update sh.callList major' (sh.callList major' ++ [e']) major
    by_cases hm : major = major'
    · rw [hm, Function.update_self]
      exact List.mem_append_left _ (hm ▸ he)
    · rw [Function.update_of_ne hm]
      exact he
  | completed =>
    rename_i major' e'
    show e ∈ Function.update (sh.release e'.msg).callList major'
      (((sh.release e'.msg).callList major').erase e') major
    rw [callList_release]
    by_cases hm : major = major'
    · have hne : e ≠ e' := fun heq ↦ hc (by rw [hm, heq])
      rw [hm, Function.update_self]
      exact (List.mem_erase_of_ne hne).2 (hm ▸ he)
    · rw [Function.update_of_ne hm]
      exact he
  | _ => exact he

/-- A message in a queue was there, or has just been posted. -/
theorem Move.mq_origin (h : Move cfg i c sh sh' cs) {t : ι} (hm : m ∈ sh'.mq t) :
    m ∈ sh.mq t ∨ c = .post t m := by
  cases h with
  | quiet hs _ => exact .inl (hs.mq_eq ▸ hm)
  | removed hmq hdst htype hhandler =>
    dsimp only at hm
    by_cases ht : t = i
    · subst ht
      rw [Function.update_self] at hm
      exact .inl (hmq ▸ List.mem_cons_of_mem _ hm)
    · rw [Function.update_of_ne ht] at hm
      exact .inl hm
  | taken _ halloc hs _ =>
    obtain ⟨_, -, rfl⟩ := alloc_eq_some halloc
    exact .inl (hs.mq_eq ▸ hm)
  | posted hroom =>
    rename_i t' m'
    dsimp only at hm
    by_cases ht : t = t'
    · subst ht
      rw [Function.update_self, List.mem_append, List.mem_singleton] at hm
      exact hm.imp id fun heq ↦ by rw [heq]
    · rw [Function.update_of_ne ht] at hm
      exact .inl hm
  | dropped => exact .inl (mq_release sh _ ▸ hm)
  | completed =>
    rename_i major e
    exact .inl (mq_release sh e.msg ▸ hm)
  | _ => exact .inl hm

/-- Only a remove and a post change a queue. -/
theorem Move.mq_eq (h : Move cfg i c sh sh' cs) (hremove : c ≠ .remove)
    (hpost : ∀ t m, c ≠ .post t m) : sh'.mq = sh.mq := by
  cases h with
  | quiet hs _ => exact hs.mq_eq
  | removed => exact absurd rfl hremove
  | taken _ halloc hs _ =>
    obtain ⟨_, -, rfl⟩ := alloc_eq_some halloc
    exact hs.mq_eq
  | posted => exact absurd rfl (hpost _ _)
  | dropped => exact mq_release sh _
  | completed =>
    rename_i major e
    exact mq_release sh e.msg
  | _ => rfl

/-- A message stays in its queue until its handler is called. -/
theorem Move.mq_kept (h : Move cfg i c sh sh' cs) {t : ι} (hm : m ∈ sh.mq t) :
    m ∈ sh'.mq t ∨ t = i ∧ ∃ ms type handler, cs = [handler] ∧ (sh.pool m).dst = some ms ∧
      (sh.pool m).type = some type ∧ getHandler cfg ms m type = some handler := by
  cases h with
  | quiet hs _ => exact .inl (hs.mq_eq ▸ hm)
  | removed hmq hdst htype hhandler =>
    dsimp only
    by_cases ht : t = i
    · subst ht
      rw [hmq, List.mem_cons] at hm
      rw [Function.update_self]
      rcases hm with rfl | hm
      · exact .inr ⟨rfl, _, _, _, rfl, hdst, htype, hhandler⟩
      · exact .inl hm
    · rw [Function.update_of_ne ht]
      exact .inl hm
  | taken _ halloc hs _ =>
    obtain ⟨_, -, rfl⟩ := alloc_eq_some halloc
    exact .inl (hs.mq_eq ▸ hm)
  | posted hroom =>
    rename_i t' m'
    dsimp only
    by_cases ht : t = t'
    · subst ht
      rw [Function.update_self]
      exact .inl (List.mem_append_left _ hm)
    · rw [Function.update_of_ne ht]
      exact .inl hm
  | dropped => exact .inl (mq_release sh _ ▸ hm)
  | completed =>
    rename_i major e
    exact .inl (mq_release sh e.msg ▸ hm)
  | _ => exact .inl hm

/-- Only `bus_call` and the end of a match change a call list. -/
theorem Move.callList_eq (h : Move cfg i c sh sh' cs) (hcall : ∀ m, c ≠ .busCall m)
    (hcomplete : ∀ major e, c ≠ .complete major e) : sh'.callList = sh.callList := by
  cases h with
  | quiet hs _ => exact hs.callList_eq
  | taken _ halloc hs _ =>
    obtain ⟨_, -, rfl⟩ := alloc_eq_some halloc
    exact hs.callList_eq
  | dropped => exact callList_release sh _
  | linked => exact absurd rfl (hcall _)
  | completed => exact absurd rfl (hcomplete _ _)
  | _ => rfl

end Contents

end Mblue
