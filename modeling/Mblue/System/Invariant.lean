import Mblue.System.Custody

/-!
# The invariant of the message system

What holds in every state, whatever the tasks do: `Good`. It says of the threads in which order
commands can stand (`precedes`) and that a task works on one message at a time (`core`); of each
pending command what its thread may rely on (`Cmd.Knows`); of the queues that a message stands in
the queue of its destination's task; of the call lists that an entry is the one `bus_call` makes for
its request; and of the pool that it is sound in the sense of `Library/RefPool.lean`.

**One condition is needed**: the 16-bit counter of a request must not wrap around (`NoWrap`). It
cannot when a request is passed on once; but a request addressed to `MBLUE_BUS` is passed on to the
bus again and again, and every time takes a reference.
-/

set_option linter.unusedSectionVars false

namespace Mblue

variable {ι σ : Type}

/-! ### The order of commands -/

namespace Cmd

/-- Where a command can stand in a thread's list: first what remains of one call of a function, then
that function's return, then the code around it, then the task's loop. -/
def rank : Cmd ι σ → ℕ
  | .send _ | .post _ _ | .semPost _ | .syncCheck _ _ | .tpend _ _ => 0
  | .remoteReturn _ => 1
  | .templateProc => 3
  | _ => 2

/-- The commands between the start and the end of a task's work on a message; a list has one. -/
def core : Cmd ι σ → ℕ
  | .remove | .handleSubscribe _ | .busSubscribe _ _ | .busSignal _ | .busSignalLoop _ _
  | .busCall _ | .busCallReturn _ | .complete _ _ | .signalHandler _ _ | .ipcHandler _ _
  | .userCode (.signal _ _) | .userCode (.service _ _ _ _) => 1
  | _ => 0

end Cmd

/-- The first command can stand before the second. -/
def precedes (a b : Cmd ι σ) : Prop :=
  a.rank < b.rank ∨ a.rank = b.rank ∧ (a.rank = 0 ∨ a.rank = 2)

theorem precedes_of_le {a b c : Cmd ι σ} (hle : a.rank ≤ c.rank) (h : precedes c b) :
    precedes a b := by
  unfold precedes at h ⊢
  omega

/-- The loop of a task is the last command. -/
theorem eq_nil_of_templateProc {rest : List (Cmd ι σ)}
    (h : (Cmd.templateProc :: rest).Pairwise precedes) : rest = [] := by
  rw [List.eq_nil_iff_forall_not_mem]
  intro b hb
  have hprec := List.rel_of_pairwise_cons h hb
  have hle : b.rank ≤ 3 := by
    unfold Cmd.rank
    split <;> omega
  have hthree : (Cmd.templateProc : Cmd ι σ).rank = 3 := rfl
  unfold precedes at hprec
  omega

section Order

variable [DecidableEq ι] [DecidableEq σ] {cfg : Config ι σ} {i : ι} {c : Cmd ι σ}
  {a : Choice ι σ} {sh sh' : Shared ι σ} {cs : List (Cmd ι σ)}

theorem getHandler_rank {ms : σ} {m : MsgId} {type : MessageType} {handler : Cmd ι σ}
    (h : getHandler cfg ms m type = some handler) :
    handler.rank = 2 ∧ handler.core = 1 := by
  cases handles_of_getHandler h <;> exact ⟨rfl, rfl⟩

/-- A command expands to commands in order that can stand where it stood. -/
theorem Effect.ordered (h : Effect cfg i c a sh sh' cs) :
    cs.Pairwise precedes ∧ ∀ d ∈ cs, d.rank ≤ c.rank := by
  cases h with
  | removed hmq hdst htype hhandler =>
    refine ⟨List.pairwise_singleton _ _, fun d hd ↦ ?_⟩
    rw [List.mem_singleton.1 hd, (getHandler_rank hhandler).1]
    rfl
  | userCall hmay =>
    rename_i k f
    cases f <;> simp [callApi, precedes, Cmd.rank]
  | _ => simp [precedes, Cmd.rank]

/-- A command expands to at most one that works on a message, if it does itself; the loop of a task
starts the work. -/
theorem Effect.core_le (h : Effect cfg i c a sh sh' cs) :
    (cs.map Cmd.core).sum ≤ c.core ∨ c = .templateProc ∧ (cs.map Cmd.core).sum ≤ 1 := by
  cases h with
  | removed hmq hdst htype hhandler =>
    refine .inl ?_
    rw [List.map_singleton, List.sum_singleton, (getHandler_rank hhandler).2]
    rfl
  | userCall hmay =>
    rename_i k f
    refine .inl ?_
    cases f <;> simp [callApi, Cmd.core]
  | _ => simp [Cmd.core]

end Order

/-! ### What a thread may rely on -/

/-- What the thread that is going to execute a command may rely on. -/
def Cmd.Knows (cfg : Config ι σ) (sh : Shared ι σ) (i : ι) : Cmd ι σ → Prop
  | .send a => a.type ≠ .signal → a.dst = none
  | .post t m => ∃ ms, (sh.pool m).dst = some ms ∧ cfg.context ms = some t
  | .handleSubscribe m =>
    i = cfg.busTask ∧ (sh.pool m).type = some .subscribe ∧ (sh.pool m).dst = some cfg.bus
  | .busSignal m | .busSignalLoop m _ =>
    i = cfg.busTask ∧ (sh.pool m).type = some .signal ∧ (sh.pool m).dst = some cfg.bus
  | .busCall m =>
    i = cfg.busTask ∧ (sh.pool m).isCall = true ∧ (sh.pool m).dst = some cfg.bus
  | .busCallReturn d =>
    i = cfg.busTask ∧ (sh.pool d).type = some .callReturn ∧ (sh.pool d).dst = some cfg.bus
  | .busSubscribe _ _ | .tpost _ _ | .freeNotifier _ => i = cfg.busTask
  | .complete major e => i = cfg.busTask ∧ e ∈ sh.callList major
  | .signalHandler ms m | .userCode (.signal ms m) =>
    cfg.context ms = some i ∧ ms ≠ cfg.bus ∧ (sh.pool m).type = some .signal ∧
      (sh.pool m).dst = some ms
  | .ipcHandler ms m | .userCode (.service ms m _ _) =>
    cfg.context ms = some i ∧ ms ≠ cfg.bus ∧ (sh.pool m).isCall = true ∧ (sh.pool m).dst = some ms
  | .finish m =>
    ∃ ms, cfg.context ms = some i ∧ ms ≠ cfg.bus ∧
      ((sh.pool m).type = some .signal ∨ (sh.pool m).isCall = true) ∧ (sh.pool m).dst = some ms
  | .release m => (sh.pool m).isCall = true → (sh.pool m).dst ≠ some cfg.bus
  | _ => True

/-- What a thread relies on stays when the message of its command does. -/
theorem Cmd.Knows.congr {cfg : Config ι σ} {sh sh' : Shared ι σ} {i : ι} {d : Cmd ι σ}
    (h : d.Knows cfg sh i)
    (hmsg : ∀ m, d.msg? = some m →
      (sh'.pool m).header = (sh.pool m).header ∧ (sh'.pool m).dst = (sh.pool m).dst)
    (hentry : ∀ major e, d = .complete major e → e ∈ sh.callList major → e ∈ sh'.callList major) :
    d.Knows cfg sh' i := by
  cases d with
  | complete major e => exact ⟨h.1, hentry major e rfl h.2⟩
  | userCode k =>
    cases k with
    | signal ms m =>
      obtain ⟨hheader, hdst⟩ := hmsg m rfl
      simpa only [Knows, Message.type_eq hheader, hdst] using h
    | service ms m f args =>
      obtain ⟨hheader, hdst⟩ := hmsg m rfl
      simpa only [Knows, Message.isCall_eq hheader, hdst] using h
    | _ => trivial
  | post _ m | handleSubscribe m | busSignal m | busSignalLoop m | busCall m | busCallReturn m
  | signalHandler _ m | ipcHandler _ m | finish m | release m =>
    obtain ⟨hheader, hdst⟩ := hmsg m rfl
    simpa only [Knows, Message.type_eq hheader, Message.isCall_eq hheader, hdst] using h
  | _ => exact h

/-! ### The invariant -/

section Invariant

variable [Fintype ι] [DecidableEq ι] [DecidableEq σ] (cfg : Config ι σ)

/-- The invariant of the message system. -/
structure Good (s : State ι σ) : Prop where
  sound : s.shared.manager.Sound (active s) (entries s.shared)
  ordered : ∀ i, (s.threads i).Pairwise precedes
  single : ∀ i, ((s.threads i).map Cmd.core).sum ≤ 1
  knows : ∀ i, ∀ c ∈ s.threads i, c.Knows cfg s.shared i
  routed : ∀ t, ∀ m ∈ s.shared.mq t,
    ∃ ms, (s.shared.pool m).dst = some ms ∧ cfg.context ms = some t
  linked : ∀ major, ∀ e ∈ s.shared.callList major, (s.shared.pool e.msg).major = some major ∧
    (s.shared.pool e.msg).isCall = true ∧ pendingCall (s.shared.pool e.msg) e.msg = some e
  counted : ∀ m, m ∉ s.shared.msgList → (s.shared.pool m).isCall = true →
    (s.shared.pool m).ref ≠ 0

/-- `bus_call` takes no reference on a message whose counter is at its maximum. -/
def NoWrap (_ : ι) (c : Cmd ι σ) (_ : Choice ι σ) (sh : Shared ι σ) : Prop :=
  ∀ m, c = .busCall m → (sh.pool m).ref.val ≠ 65535

instance (i : ι) (c : Cmd ι σ) (a : Choice ι σ) (sh : Shared ι σ) : Decidable (NoWrap i c a sh) :=
  inferInstanceAs (Decidable (∀ m, c = .busCall m → (sh.pool m).ref.val ≠ 65535))

variable {cfg} {s : State ι σ} {i j : ι} {c d : Cmd ι σ} {a : Choice ι σ}
  {rest cs : List (Cmd ι σ)} {sh' : Shared ι σ} {m : MsgId}

namespace Good

/-- A message that is carried is not free. -/
theorem not_free (h : Good cfg s) (hd : d ∈ s.threads j) (hm : d.msg? = some m) :
    m ∉ s.shared.msgList :=
  h.sound.not_mem_free (Nat.add_pos_left (active_pos_of_mem hd hm) _)

theorem not_free_of_mq (h : Good cfg s) (hm : m ∈ s.shared.mq j) : m ∉ s.shared.msgList :=
  h.sound.not_mem_free (Nat.add_pos_left (active_pos_of_mem_mq hm) _)

theorem not_free_of_entry (h : Good cfg s) {major : Major} {e : PendingCall}
    (he : e ∈ s.shared.callList major) : e.msg ∉ s.shared.msgList :=
  h.sound.not_mem_free (Nat.add_pos_right _ (entries_pos_of_mem he))

theorem mem_head (hc : s.threads i = c :: rest) : c ∈ s.threads i := hc ▸ List.mem_cons_self

/-- Two commands do not carry the same message. -/
theorem carrier_unique (h : Good cfg s) (hc : s.threads i = c :: rest)
    (hd : d ∈ Function.update s.threads i rest j) (hm : d.msg? = some m) : c.msg? ≠ some m := by
  intro hcm
  have htwo := two_le_mentions hc hcm hd hm
  have hone := h.sound.act_le_one m
  unfold active at hone
  omega

/-- A message that is queued is not carried. -/
theorem carrier_ne_of_mq (h : Good cfg s) (hd : d ∈ s.threads j) (hdm : d.msg? = some m) (t : ι) :
    m ∉ s.shared.mq t := by
  intro hm
  have hcarried := mentions_pos hd hdm
  have hq := le_sum s.shared.mq (fun l ↦ l.count m) t
  have hpos := List.count_pos_iff.2 hm
  have hone := h.sound.act_le_one m
  unfold active queued at hone
  omega

/-- A task that works on one message does not start on another. -/
theorem core_unique (h : Good cfg s) (hc : s.threads i = c :: rest) (hcore : c.core = 1)
    (hd : d ∈ rest) : d.core = 0 := by
  have hsum := h.single i
  have hle : d.core ≤ (rest.map Cmd.core).sum :=
    List.le_sum_of_mem (List.mem_map_of_mem hd)
  rw [hc, List.map_cons, List.sum_cons, hcore] at hsum
  omega

/-- **What remains is left alone**: the message of a command that remains keeps its header and its
destination. -/
theorem kept (h : Good cfg s) (hc : s.threads i = c :: rest) (hmove : Move cfg i c s.shared sh' cs)
    (hd : d ∈ Function.update s.threads i rest j) (hm : d.msg? = some m) :
    (sh'.pool m).header = (s.shared.pool m).header ∧
      (sh'.pool m).dst = (s.shared.pool m).dst := by
  have hfree := h.not_free (mem_of_mem_rest hc hd) hm
  exact ⟨hmove.header_eq hfree, hmove.dst_eq hfree fun heq ↦
    h.carrier_unique hc hd hm (heq ▸ rfl)⟩

theorem kept_of_mq (h : Good cfg s) (hc : s.threads i = c :: rest)
    (hmove : Move cfg i c s.shared sh' cs) (hm : m ∈ s.shared.mq j) :
    (sh'.pool m).header = (s.shared.pool m).header ∧
      (sh'.pool m).dst = (s.shared.pool m).dst := by
  have hfree := h.not_free_of_mq hm
  exact ⟨hmove.header_eq hfree, hmove.dst_eq hfree fun heq ↦
    h.carrier_ne_of_mq (mem_head hc) (heq ▸ rfl) j hm⟩

end Good

/-! ### One step -/

namespace Good

theorem sound_step (h : Good cfg s) (hc : s.threads i = c :: rest)
    (hwrap : ∀ m, c = .busCall m → (s.shared.pool m).ref.val ≠ 65535)
    (hmove : Move cfg i c s.shared sh' cs) :
    sh'.manager.Sound (active ⟨sh', Function.update s.threads i (cs ++ rest)⟩) (entries sh') := by
  have hsound := h.sound
  have hknows := h.knows i c (mem_head hc)
  cases hmove with
  | quiet hs hcarried =>
    rw [hs.manager_eq, active_pass hc _ hcarried hs.mq_eq, entries_congr hs.callList_eq]
    exact hsound
  | removed hmq hdst htype hhandler =>
    rw [active_removed hc hmq (carried_getHandler hhandler)]
    exact hsound
  | taken _ halloc hs hcarried =>
    obtain ⟨free, hfree, hmanager⟩ := manager_alloc halloc
    obtain ⟨_, -, hsh⟩ := alloc_eq_some halloc
    have hentries : entries sh' = entries s.shared :=
      entries_congr (by rw [hs.callList_eq, hsh])
    rw [hs.manager_eq, hmanager, active_take hc hcarried (by rw [hs.mq_eq, hsh]), hentries]
    exact hsound.take hfree _
  | posted hroom =>
    rw [active_posted hc]
    exact hsound
  | lost hmsg hcarried =>
    -- a queue is full, and nobody has the message any more
    rw [← active_drop hc hmsg hcarried rfl] at hsound
    exact hsound.lose
  | dropped hd hcarried =>
    rename_i m
    have hmsg : carried [c] = [m] := by
      rcases hd with rfl | rfl <;> rfl
    have hmq : (s.shared.release m).mq = s.shared.mq := mq_release s.shared m
    rw [← active_drop hc hmsg hcarried hmq] at hsound
    rw [manager_release, entries_release]
    exact hsound.release
  | forwarded hmajor hnode hctx hentry =>
    rename_i m major ms t
    have hactive := active_pass hc (s.shared.forward m ms)
      (show carried [.post t m] = carried [.busCall m] from rfl) rfl
    have hentries : entries (s.shared.forward m ms) = entries s.shared := entries_congr rfl
    rw [manager_forward _ (hwrap m rfl), hactive, hentries]
    exact hsound.retain m
  | linked hmajor hnode hctx hentry =>
    -- `bus_call` takes two references, one of them for the entry
    rename_i m major ms t e
    have hfree : m ∉ s.shared.msgList := h.not_free (mem_head hc) rfl
    have hpos : 0 < s.shared.manager.ref m :=
      Nat.pos_of_ne_zero fun h0 ↦ h.counted m hfree hknows.2.1 (Fin.ext h0)
    have hactive := active_pass hc
      (((s.shared.link major e).log (.linked major e (s.shared.pool m).seq)).forward m ms)
      (show carried [.post t m] = carried [.busCall m] from rfl) rfl
    rw [manager_linked (hwrap m rfl), hactive, entries_linked (pendingCall_msg hentry)]
    exact hsound.share hfree hpos
  | completed =>
    rename_i major e
    have hactive := active_pass hc
      (((s.shared.release e.msg).unlink major e).log (.unlinked major e))
      (show carried [] = carried [.complete major e] from rfl) (mq_release s.shared e.msg)
    rw [manager_completed, hactive]
    rw [← entries_completed hknows.2 (.unlinked major e)] at hsound
    exact hsound.releaseEntry

theorem ordered_step (h : Good cfg s) (hc : s.threads i = c :: rest)
    (he : Effect cfg i c a s.shared sh' cs) :
    ∀ j, (Function.update s.threads i (cs ++ rest) j).Pairwise precedes := by
  intro j
  have hi := h.ordered i
  rw [hc, List.pairwise_cons] at hi
  by_cases hj : j = i
  · rw [hj, Function.update_self, List.pairwise_append]
    exact ⟨he.ordered.1, hi.2, fun d hd b hb ↦ precedes_of_le (he.ordered.2 d hd) (hi.1 b hb)⟩
  · rw [Function.update_of_ne hj]
    exact h.ordered j

theorem single_step (h : Good cfg s) (hc : s.threads i = c :: rest)
    (he : Effect cfg i c a s.shared sh' cs) :
    ∀ j, ((Function.update s.threads i (cs ++ rest) j).map Cmd.core).sum ≤ 1 := by
  intro j
  have hi := h.single i
  rw [hc, List.map_cons, List.sum_cons] at hi
  by_cases hj : j = i
  · rw [hj, Function.update_self, List.map_append, List.sum_append]
    rcases he.core_le with hle | ⟨rfl, hle⟩
    · omega
    · have hnil := eq_nil_of_templateProc (hc ▸ h.ordered i)
      rw [hnil]
      exact hle
  · rw [Function.update_of_ne hj]
    exact h.single j

theorem knows_callApi (cfg : Config ι σ) (i : ι) (sh sh' : Shared ι σ) (f : Api ι σ) :
    ∀ d ∈ (callApi cfg i sh f).2, d.Knows cfg sh' i := by
  cases f <;>
    simp only [callApi, List.forall_mem_cons, List.not_mem_nil, false_imp_iff, implies_true,
      and_true, Cmd.Knows, drawnArgs, ipcReturnArgs, ne_eq, not_true_eq_false]

/-- What the handler of a queued message may rely on. -/
theorem knows_handler {cfg : Config ι σ} {sh : Shared ι σ} {ms : σ} {type : MessageType}
    {handler : Cmd ι σ} (hdst : (sh.pool m).dst = some ms) (hctx : cfg.context ms = some i)
    (htype : (sh.pool m).type = some type) (hh : getHandler cfg ms m type = some handler) :
    handler.Knows cfg sh i := by
  have hbus : ms = cfg.bus → i = cfg.busTask := fun heq ↦ by
    rw [heq, cfg.context_bus] at hctx
    exact (Option.some.inj hctx).symm
  have hisCall := Message.isCall_of_type htype
  cases handles_of_getHandler hh with
  | subscribe heq => exact ⟨hbus heq, htype, heq ▸ hdst⟩
  | busSignal heq => exact ⟨hbus heq, htype, heq ▸ hdst⟩
  | busCall heq hcall => exact ⟨hbus heq, hisCall.trans hcall, heq ▸ hdst⟩
  | busCallReturn heq => exact ⟨hbus heq, htype, heq ▸ hdst⟩
  | signal hne => exact ⟨hctx, hne, htype, hdst⟩
  | call hne hcall => exact ⟨hctx, hne, hisCall.trans hcall, hdst⟩

/-- What the commands of an expansion may rely on. -/
theorem knows_new (h : Good cfg s) (hc : s.threads i = c :: rest)
    (he : Effect cfg i c a s.shared sh' cs) : ∀ d ∈ cs, d.Knows cfg sh' i := by
  have hknows := h.knows i c (mem_head hc)
  have hnocall : ∀ {msg : Message ι σ} {type : MessageType}, msg.type = some type →
      type.isCall = false → msg.isCall = true → msg.dst ≠ some cfg.bus := fun ht hf hcall ↦ by
    rw [Message.isCall_of_type ht, hf] at hcall
    exact absurd hcall (by decide)
  cases he with
  | removed hmq hdst htype hhandler =>
    obtain ⟨ms, hdst', hctx⟩ := h.routed i _ (hmq ▸ List.mem_cons_self)
    rw [hdst] at hdst'
    cases hdst'
    rw [List.forall_mem_singleton]
    exact knows_handler hdst hctx htype hhandler
  | userCall hmay =>
    rename_i k f
    have hpool := (sameMessages_callApi cfg i s.shared f).pool_eq
    rw [List.forall_mem_append, List.forall_mem_singleton]
    refine ⟨knows_callApi cfg i s.shared _ f, hknows.congr (fun m _ ↦ ?_) (by simp)⟩
    rw [hpool]
    exact ⟨rfl, rfl⟩
  | sendDone halloc hctx =>
    obtain ⟨free, -, rfl⟩ := alloc_eq_some halloc
    simp only [List.forall_mem_cons, List.not_mem_nil, false_imp_iff, implies_true, and_true,
      Cmd.Knows, Function.update_self]
    exact ⟨_, rfl, hctx⟩
  | loopReplicated hctx halloc =>
    -- the broadcast is in use, so its replica is another message
    obtain ⟨free, hfree, rfl⟩ := alloc_eq_some halloc
    rename_i m ms subs t r
    have hne : m ≠ r := fun heq ↦
      h.not_free (mem_head hc) rfl (hfree ▸ heq ▸ List.mem_cons_self)
    simp only [List.forall_mem_cons, List.not_mem_nil, false_imp_iff, implies_true, and_true,
      Cmd.Knows, Shared.log, Function.update_self, Function.update_of_ne hne]
    exact ⟨⟨ms, rfl, hctx⟩, hknows⟩
  | callNoEntry hmajor hnode hctx hentry =>
    rw [List.forall_mem_singleton]
    exact ⟨_, by simp only [Shared.forward, Function.update_self], hctx⟩
  | callLinked hmajor hnode hctx hentry =>
    rw [List.forall_mem_singleton]
    exact ⟨_, by simp only [Shared.forward, Function.update_self], hctx⟩
  | signalFinished | signalUnhandled =>
    rw [List.forall_mem_singleton]
    exact ⟨_, hknows.1, hknows.2.1, .inl hknows.2.2.1, hknows.2.2.2⟩
  | requestUnhandled =>
    rw [List.forall_mem_singleton]
    exact ⟨_, hknows.1, hknows.2.1, .inr hknows.2.2.1, hknows.2.2.2⟩
  | serviceFinished | requestRefused =>
    rw [List.forall_mem_cons, List.forall_mem_singleton]
    exact ⟨fun _ ↦ rfl, _, hknows.1, hknows.2.1, .inr hknows.2.2.1, hknows.2.2.2⟩
  | subscribeReleased =>
    rw [List.forall_mem_singleton]
    exact hknows.1
  | loopDone | returnUnmatched =>
    rw [List.forall_mem_singleton]
    exact hnocall hknows.2.1 rfl
  | signalUnheard | returnNoCalls =>
    rw [List.forall_mem_cons, List.forall_mem_singleton]
    exact ⟨trivial, hnocall hknows.2.1 rfl⟩
  | returnOther hmajor hfind =>
    rw [List.forall_mem_cons, List.forall_mem_singleton]
    exact ⟨⟨hknows.1, List.mem_of_find?_eq_some hfind⟩, hnocall hknows.2.1 rfl⟩
  | returnSync hmajor hfind =>
    rw [List.forall_mem_cons, List.forall_mem_cons, List.forall_mem_singleton]
    exact ⟨hknows.1, ⟨hknows.1, List.mem_of_find?_eq_some hfind⟩, hnocall hknows.2.1 rfl⟩
  | returnAsync hmajor hfind =>
    rw [List.forall_mem_cons, List.forall_mem_cons, List.forall_mem_cons,
      List.forall_mem_singleton]
    exact ⟨trivial, hknows.1, ⟨hknows.1, List.mem_of_find?_eq_some hfind⟩,
      hnocall hknows.2.1 rfl⟩
  | finishedPayload | finishedPlain =>
    rw [List.forall_mem_singleton]
    obtain ⟨ms, -, hne, -, hdst⟩ := hknows
    exact fun _ heq ↦ hne (Option.some.inj (hdst.symm.trans heq))
  | _ =>
    simp only [List.forall_mem_cons, List.not_mem_nil, false_imp_iff, implies_true, and_true,
      Cmd.Knows]
    try exact hknows

/-- What the commands that remain may rely on. -/
theorem knows_kept (h : Good cfg s) (hc : s.threads i = c :: rest)
    (hmove : Move cfg i c s.shared sh' cs) :
    ∀ j, ∀ d ∈ Function.update s.threads i rest j, d.Knows cfg sh' j := by
  intro j d hd
  refine (h.knows j d (mem_of_mem_rest hc hd)).congr (fun m hm ↦ h.kept hc hmove hd hm) ?_
  rintro major e rfl he
  refine hmove.entry_kept he ?_
  rintro rfl
  -- the bus does not complete two calls at a time
  have hji : j = i :=
    ((h.knows j _ (mem_of_mem_rest hc hd)).1).trans ((h.knows i _ (mem_head hc)).1).symm
  rw [hji, Function.update_self] at hd
  exact absurd (h.core_unique hc rfl hd) Nat.one_ne_zero

theorem routed_step (h : Good cfg s) (hc : s.threads i = c :: rest)
    (hmove : Move cfg i c s.shared sh' cs) :
    ∀ t, ∀ m ∈ sh'.mq t, ∃ ms, (sh'.pool m).dst = some ms ∧ cfg.context ms = some t := by
  have hkeep : ∀ t, ∀ m ∈ s.shared.mq t, ∃ ms, (sh'.pool m).dst = some ms ∧
      cfg.context ms = some t := fun t m hm ↦ by
    rw [(h.kept_of_mq hc hmove hm).2]
    exact h.routed t m hm
  intro t m hm
  cases hmove with
  | quiet hs _ => exact hkeep t m (hs.mq_eq ▸ hm)
  | removed hmq hdst htype hhandler =>
    refine h.routed t m ?_
    by_cases ht : t = i
    · dsimp only at hm
      rw [ht, Function.update_self] at hm
      rw [ht, hmq]
      exact List.mem_cons_of_mem _ hm
    · dsimp only at hm
      rwa [Function.update_of_ne ht] at hm
  | taken _ halloc hs _ =>
    obtain ⟨_, -, rfl⟩ := alloc_eq_some halloc
    exact hkeep t m (hs.mq_eq ▸ hm)
  | posted hroom =>
    rename_i t' m'
    dsimp only at hm
    by_cases ht : t = t'
    · rw [ht, Function.update_self, List.mem_append, List.mem_singleton] at hm
      rcases hm with hm | hm
      · exact ht ▸ h.routed t' m hm
      · rw [hm, ht]
        exact h.knows i _ (mem_head hc)
    · rw [Function.update_of_ne ht] at hm
      exact h.routed t m hm
  | dropped => exact hkeep t m (mq_release s.shared _ ▸ hm)
  | completed =>
    rename_i major e
    exact hkeep t m (mq_release s.shared e.msg ▸ hm)
  | _ => exact hkeep t m hm

theorem linked_step (h : Good cfg s) (hc : s.threads i = c :: rest)
    (hmove : Move cfg i c s.shared sh' cs) :
    ∀ major, ∀ e ∈ sh'.callList major, (sh'.pool e.msg).major = some major ∧
      (sh'.pool e.msg).isCall = true ∧ pendingCall (sh'.pool e.msg) e.msg = some e := by
  intro major e he
  rcases hmove.entry_origin he with he | ⟨rfl, hmajor, hentry⟩
  · have hheader := hmove.header_eq (h.not_free_of_entry he)
    rw [Message.major_eq hheader, Message.isCall_eq hheader, Message.pendingCall_eq hheader]
    exact h.linked major e he
  · have hheader := hmove.header_eq (h.not_free (mem_head hc) rfl)
    rw [Message.major_eq hheader, Message.isCall_eq hheader, Message.pendingCall_eq hheader]
    exact ⟨hmajor, (h.knows i _ (mem_head hc)).2.1, hentry⟩

/-- **A request in use has a counter to add to.** -/
theorem counted_step (h : Good cfg s) (hc : s.threads i = c :: rest)
    (hwrap : ∀ m, c = .busCall m → (s.shared.pool m).ref.val ≠ 65535)
    (hmove : Move cfg i c s.shared sh' cs) :
    ∀ m, m ∉ sh'.msgList → (sh'.pool m).isCall = true → (sh'.pool m).ref ≠ 0 := by
  have hknows := h.knows i c (mem_head hc)
  -- a message whose counter comes to zero is free
  have hrelease : ∀ n m, m ∉ (s.shared.release n).msgList →
      ((s.shared.release n).pool m).isCall = true → ((s.shared.release n).pool m).ref ≠ 0 := by
    intro n m hfree hcall
    rw [Message.isCall_eq (header_release s.shared n m)] at hcall
    rw [mem_msgList_release, not_or] at hfree
    rw [pool_release]
    by_cases hm : m = n
    · subst hm
      rw [Function.update_self]
      exact fun hzero ↦ hfree.2 ⟨rfl, hzero⟩
    · rw [Function.update_of_ne hm]
      exact h.counted m hfree.1 hcall
  -- a counter goes up, and only a wrap takes it to zero
  have hforward : ∀ n ms m, (s.shared.pool n).ref.val ≠ 65535 → m ∉ s.shared.msgList →
      ((s.shared.forward n ms).pool m).isCall = true →
      ((s.shared.forward n ms).pool m).ref ≠ 0 := by
    intro n ms m hne hfree hcall
    rw [pool_forward] at hcall ⊢
    by_cases hm : m = n
    · subst hm
      rw [Function.update_self]
      intro hzero
      have hval := getMblueMessage_val hne
      rw [show getMblueMessage (s.shared.pool m).ref = 0 from hzero] at hval
      exact absurd hval (Nat.succ_ne_zero _).symm
    · rw [Function.update_of_ne hm] at hcall ⊢
      exact h.counted m hfree hcall
  intro m hfree hcall
  cases hmove with
  | quiet hs _ =>
    rw [hs.pool_eq] at hcall ⊢
    exact h.counted m (hs.msgList_eq ▸ hfree) hcall
  | taken hmakes halloc hs hcarried =>
    rename_i sh₁ n content
    obtain ⟨free, hlist, rfl⟩ := alloc_eq_some halloc
    rw [hs.msgList_eq] at hfree
    rw [hs.pool_eq] at hcall ⊢
    by_cases hm : m = n
    · rw [hm] at hcall ⊢
      dsimp only at hcall ⊢
      rw [Function.update_self] at hcall ⊢
      rcases hmakes with ⟨args, -, rfl⟩ | ⟨n', ms, subs, rfl, rfl⟩
      · have htype : (initMessage cfg args).isCall = args.type.isCall :=
          Message.isCall_of_type (getType_mkCode _ _ _)
        rw [htype] at hcall
        show (if args.type.isCall then (1 : Uint16) else 0) ≠ 0
        rw [if_pos hcall]
        decide
      · have htype : (replicate (s.shared.pool n') ms).isCall = MessageType.signal.isCall :=
          Message.isCall_of_type hknows.2.1
        rw [htype] at hcall
        exact absurd hcall (by decide)
    · dsimp only at hfree hcall ⊢
      rw [Function.update_of_ne hm] at hcall ⊢
      refine h.counted m (fun hmem ↦ ?_) hcall
      rw [hlist, List.mem_cons] at hmem
      exact hmem.elim hm hfree
  | dropped => exact hrelease _ m hfree hcall
  | forwarded => exact hforward _ _ m (hwrap _ rfl) hfree hcall
  | linked => exact hforward _ _ m (hwrap _ rfl) hfree hcall
  | completed => exact hrelease _ m hfree hcall
  | _ => exact h.counted m hfree hcall

/-- **The step lemma.** -/
theorem step (h : Good cfg s) {l : ι × Choice ι σ} {t : State ι σ} (hok : AtHead NoWrap s l)
    (hstep : (fused cfg).step s l = some t) : Good cfg t := by
  obtain ⟨c, rest, sh', cs, hc, he, rfl⟩ := effect_of_step hstep
  have hmove := move_of_effect he
  have hwrap : ∀ m, c = .busCall m → (s.shared.pool m).ref.val ≠ 65535 := hok.cmd hc
  exact ⟨h.sound_step hc hwrap hmove, h.ordered_step hc he, h.single_step hc he,
    forall_expand (h.knows_new hc he) (h.knows_kept hc hmove), h.routed_step hc hmove,
    h.linked_step hc hmove, h.counted_step hc hwrap hmove⟩

theorem initial (cfg : Config ι σ) : Good cfg (initial cfg) := by
  have hthreads : ∀ i, ∀ c ∈ (Mblue.initial cfg).threads i, c = .userCode .app ∨ c = .templateProc :=
    fun i c hc ↦ by
      unfold Mblue.initial at hc
      dsimp only at hc
      split at hc
      · simpa using hc
      · exact .inl (List.mem_singleton.1 hc)
  have hact : active (Mblue.initial cfg) = 0 := by
    funext m
    have hweight : mentions Cmd.msg? (Mblue.initial cfg).threads m = 0 :=
      weight_eq_zero_iff.2 fun i c hc ↦ by
        rcases hthreads i c hc with rfl | rfl <;> rfl
    have hqueued : queued (Mblue.initial cfg).shared m = 0 := Finset.sum_eq_zero fun _ _ ↦ rfl
    unfold active
    rw [hweight, hqueued]
    rfl
  have hentries : entries (Mblue.initial cfg).shared = 0 := by
    funext m
    exact Finset.sum_eq_zero fun _ _ ↦ rfl
  refine ⟨?_, fun i ↦ ?_, fun i ↦ ?_, fun i c hc ↦ ?_, fun t m hm ↦ absurd hm List.not_mem_nil,
    fun major e he ↦ absurd he List.not_mem_nil, fun m hm ↦ absurd (List.mem_finRange m) hm⟩
  · rw [hact, hentries]
    exact PoolManager.sound_full (List.nodup_finRange _)
  · unfold Mblue.initial
    dsimp only
    split <;> simp [precedes, Cmd.rank]
  · unfold Mblue.initial
    dsimp only
    split <;> simp [Cmd.core]
  · rcases hthreads i c hc with rfl | rfl <;> trivial

/-- **The invariant holds in every state reached.** -/
theorem of_run {s : State ι σ} (h : Run (fused cfg).step (AtHead NoWrap) (Mblue.initial cfg) s) :
    Good cfg s :=
  h.invariant (initial cfg) fun ha hok hstep ↦ ha.step hok hstep

end Good

end Invariant

end Mblue
