import Mblue.Delivery.Work

/-!
# Nothing is in the way of a signal

A system that only publishes: user code subscribes segments and sends signals, and neither it nor
`LOGGER` calls a service (`publishes`). `Publisher` says what such a system keeps: its messages are
subscriptions and signals, each to a segment that a task runs, and a task has been woken up once for
each message in its queue. So every command that is pending can be executed (`Publisher.ready`), but
for two: the loop of a task waits where its queue is empty, and `bus_signal` follows a null pointer
where no message is free for a replica.
-/

set_option linter.unusedSectionVars false

namespace Mblue

variable {ι σ : Type}

/-! ### What a system that publishes does -/

/-- User code subscribes a segment or sends a signal, to all subscribers or to a segment that a task
runs. -/
def Api.publishes (cfg : Config ι σ) : Api ι σ → Bool
  | .mblueSubscribe _ _ | .broadcastSignal _ _ _ | .broadcastSignalWithContext _ _ _ _ => true
  | .targetSignal _ _ _ dest _ _ => dest.all fun ms ↦ (cfg.context ms).isSome
  | _ => false

/-- The condition on a step: user code calls no other function. `LOGGER` calls none: where
`bus_signal` writes a line for a signal nobody has subscribed to, `log_service_write` finds no memory
for it. -/
def publishes (cfg : Config ι σ) : Cmd ι σ → Choice ι σ → Bool
  | .userCode _, .api f => f.publishes cfg
  | _, _ => true

/-- The commands that subscriptions and signals lead to. -/
def Cmd.publishes : Cmd ι σ → Bool
  | .tpend _ _ | .remoteReturn _ | .busCall _ | .busCallReturn _ | .tpost _ _ | .freeNotifier _
  | .complete _ _ | .unlink _ _ | .ipcHandler _ _ | .userCode (.service _ _ _ _)
  | .userCode (.notify _ _) => false
  | _ => true

/-- The message is a subscription or a signal, under the number of a segment. -/
def Message.publishes (msg : Message ι σ) : Bool :=
  (msg.type == some .subscribe || msg.type == some .signal) && msg.major.isSome

/-- The segments are bound to tasks, and no table has a null handler. -/
structure Wired (cfg : Config ι σ) : Prop where
  /-- `ms->context` is a task. -/
  isTask : ∀ ms t, cfg.context ms = some t → cfg.isTask t = true
  /-- The handlers are functions. -/
  handler_ne : ∀ ms, ∀ item ∈ cfg.signalItems ms, item.handler ≠ 0

theorem Message.publishes_congr {x y : Message ι σ} (h : x.header = y.header) :
    x.publishes = y.publishes := by
  rw [Message.publishes, Message.publishes, Message.type_eq h, Message.major_eq h]

theorem Message.publishes_iff {msg : Message ι σ} : msg.publishes = true ↔
    (msg.type = some .subscribe ∨ msg.type = some .signal) ∧ ∃ major, msg.major = some major := by
  rw [Message.publishes, Bool.and_eq_true, Bool.or_eq_true, beq_iff_eq, beq_iff_eq,
    Option.isSome_iff_exists]

theorem publishes_initMessage (cfg : Config ι σ) {b : SendArgs ι σ}
    (h : b.type = .subscribe ∨ b.type = .signal) : (initMessage cfg b).publishes = true := by
  have hmajor : (initMessage cfg b).major = some b.major := getMajor_mkCode _ _ _
  rw [Message.publishes_iff, type_initMessage, hmajor]
  exact ⟨h.imp (congrArg some) (congrArg some), _, rfl⟩

section Steps

variable [Fintype ι] [DecidableEq ι] [DecidableEq σ] {cfg : Config ι σ} {i t : ι} {c : Cmd ι σ}
  {a : Choice ι σ} {sh sh' : Shared ι σ} {cs : List (Cmd ι σ)}

omit [DecidableEq ι] [DecidableEq σ] in
theorem header_forward (sh : Shared ι σ) {n : MsgId} (ms : σ) (m : MsgId) :
    ((sh.forward n ms).pool m).header = (sh.pool m).header := by
  rw [pool_forward]
  by_cases hm : m = n
  · rw [hm, Function.update_self]
    rfl
  · rw [Function.update_of_ne hm]

/-- **Every message, free or not**, keeps its header, or has just been written. -/
theorem Move.header_cases (h : Move cfg i c sh sh' cs) (m : MsgId) :
    (sh'.pool m).header = (sh.pool m).header ∨ Makes cfg sh c (sh'.pool m) := by
  cases h with
  | quiet hsame => exact .inl (congrArg Message.header (congrFun hsame.pool_eq m))
  | taken hmakes halloc hsame =>
    rename_i sh₁ n content hcarried
    obtain ⟨_, -, rfl⟩ := alloc_eq_some halloc
    rw [hsame.pool_eq]
    by_cases hm : m = n
    · rw [hm]
      dsimp only
      rw [Function.update_self]
      exact .inr hmakes
    · dsimp only
      rw [Function.update_of_ne hm]
      exact .inl rfl
  | dropped => exact .inl (header_release sh _ m)
  | forwarded => exact .inl (header_forward _ _ m)
  | linked => exact .inl (header_forward _ _ m)
  | completed => exact .inl (header_release sh _ m)
  | _ => exact .inl rfl

/-! ### The invariant -/

/-- **What a system that publishes keeps.** -/
structure Publisher (cfg : Config ι σ) (s : State ι σ) : Prop extends
    Listed cfg s, Awake cfg s where
  sends : ∀ k b, .send b ∈ s.threads k → (b.type = .subscribe ∨ b.type = .signal) ∧
    ∃ t, cfg.context (b.dst.getD cfg.bus) = some t
  publishes : ∀ m, (s.shared.pool m).publishes = true
  toBus : ∀ m, m ∉ s.shared.msgList → (s.shared.pool m).type = some .subscribe →
    (s.shared.pool m).dst = some cfg.bus
  commands : ∀ k, ∀ d ∈ s.threads k, d.publishes = true

variable {s : State ι σ} {rest : List (Cmd ι σ)}

namespace Publisher

/-- What user code sends is a subscription or a signal. -/
theorem sends_new (he : Effect cfg i c a sh sh' cs) (hok : Mblue.publishes cfg c a = true)
    (hc : c.publishes = true) {b : SendArgs ι σ} (hb : .send b ∈ cs) :
    (b.type = .subscribe ∨ b.type = .signal) ∧ ∃ t, cfg.context (b.dst.getD cfg.bus) = some t := by
  have hbus : ∃ t, cfg.context cfg.bus = some t := ⟨_, cfg.context_bus⟩
  cases he with
  | userCall hmay =>
    rename_i k f
    have hf : f.publishes cfg = true := hok
    rcases List.mem_append.1 hb with hb | hb
    · cases f with
      | mblueSubscribe ms major =>
        obtain rfl := Cmd.send.inj (List.mem_singleton.1 hb)
        exact ⟨.inl rfl, hbus⟩
      | broadcastSignal major minor data | broadcastSignalWithContext c major minor data =>
        obtain rfl := Cmd.send.inj (List.mem_singleton.1 hb)
        exact ⟨.inr rfl, hbus⟩
      | targetSignal source major minor dest data extra =>
        obtain rfl := Cmd.send.inj (List.mem_singleton.1 hb)
        refine ⟨.inr rfl, ?_⟩
        cases dest with
        | none => exact hbus
        | some ms => exact Option.isSome_iff_exists.1 hf
      | _ => cases hf
    · cases List.mem_singleton.1 hb
  | removed hmq hdst htype hhandler =>
    rw [← List.mem_singleton.1 hb] at hhandler
    cases handles_of_getHandler hhandler
  | serviceFinished | requestRefused => cases hc
  | _ => simp at hb

theorem publishes_step (h : Publisher cfg s) (hc : s.threads i = c :: rest)
    (hmove : Move cfg i c s.shared sh' cs) (m : MsgId) : (sh'.pool m).publishes = true := by
  rcases hmove.header_cases m with heq | ⟨b, rfl, heq⟩ | ⟨n, ms, subs, rfl, heq⟩
  · rw [Message.publishes_congr heq]
    exact h.publishes m
  · rw [heq]
    exact publishes_initMessage cfg (h.sends i b (Good.mem_head hc)).1
  · rw [heq]
    exact h.publishes n

theorem toBus_step (h : Publisher cfg s) (hc : s.threads i = c :: rest)
    (hmove : Move cfg i c s.shared sh' cs) (m : MsgId) (hm : m ∉ sh'.msgList)
    (htype : (sh'.pool m).type = some .subscribe) : (sh'.pool m).dst = some cfg.bus := by
  have hhead := Good.mem_head hc
  rcases hmove.origin hm with hfree | ⟨⟨b, rfl, heq⟩ | ⟨n, ms, subs, rfl, heq⟩, -⟩
  · have hcall : c ≠ .busCall m := fun heq ↦ by
      have hcommand := h.commands i c hhead
      rw [heq] at hcommand
      cases hcommand
    rw [Message.type_eq (hmove.header_eq hfree)] at htype
    rw [hmove.dst_eq hfree hcall]
    exact h.toBus m hfree htype
  · rw [heq, type_initMessage, Option.some.injEq] at htype
    have hnone : b.dst = none := h.knows i _ hhead (by rw [htype]; exact MessageType.noConfusion)
    rw [heq]
    show some (b.dst.getD cfg.bus) = some cfg.bus
    rw [hnone, Option.getD_none]
  · have hsignal : (replicate (s.shared.pool n) ms).type = some .signal :=
      (h.knows i _ hhead).2.1
    rw [heq, hsignal] at htype
    cases htype

/-- A message that publishes is handled by a command that does. -/
theorem publishes_handler {ms : σ} {m : MsgId} {type : MessageType} {handler : Cmd ι σ}
    (hmsg : (sh.pool m).publishes = true) (htype : (sh.pool m).type = some type)
    (hhandler : getHandler cfg ms m type = some handler) : handler.publishes = true := by
  obtain ⟨htypes, -⟩ := Message.publishes_iff.1 hmsg
  rw [htype, Option.some.injEq, Option.some.injEq] at htypes
  rcases htypes with rfl | rfl <;> cases handles_of_getHandler hhandler with
  | busCall _ hcall | call _ hcall => cases hcall
  | _ => rfl

theorem commands_new (h : Publisher cfg s) (hc : s.threads i = c :: rest)
    (he : Effect cfg i c a s.shared sh' cs) (hok : Mblue.publishes cfg c a = true) :
    ∀ d ∈ cs, d.publishes = true := by
  have hcommand := h.commands i c (Good.mem_head hc)
  intro d hd
  cases he with
  | removed hmq hdst htype hhandler =>
    rw [List.mem_singleton.1 hd]
    exact publishes_handler (h.publishes _) htype hhandler
  | userCall hmay =>
    rename_i k f
    have hf : f.publishes cfg = true := hok
    rcases List.mem_append.1 hd with hd | hd
    · rcases cmd_of_callApi hd with ⟨b, rfl⟩ | ⟨o, rfl⟩
      · rfl
      · cases f <;> first | cases List.mem_singleton.1 hd | cases hf
    · rw [List.mem_singleton.1 hd]
      exact hcommand
  | checkedTask htype =>
    obtain ⟨htypes, -⟩ := Message.publishes_iff.1 (h.publishes _)
    rw [htype] at htypes
    rcases htypes with htypes | htypes <;> cases htypes
  | callNoSegment | callNoEntry | callNoMemory | callLinked | returnNoCalls | returnUnmatched
  | returnOther | returnSync | returnAsync | requestUndecodable | requestUnhandled
  | requestRefused | requestCalled | serviceFinished => cases hcommand
  | userMalloc | userFailed =>
    rw [List.mem_singleton.1 hd]
    exact hcommand
  | _ => exact List.all_eq_true.1 rfl d hd

/-- **The step lemma.** -/
theorem step (h : Publisher cfg s) {l : ι × Choice ι σ} {u : State ι σ}
    (hok : AtHead (fun i c a sh ↦ Delivering cfg i c a sh ∧ Mblue.publishes cfg c a = true) s l)
    (hstep : (fused cfg).step s l = some u) : Publisher cfg u := by
  have hlisted := h.toListed.step (hok.mono And.left) hstep
  obtain ⟨i, a⟩ := l
  obtain ⟨c, rest, sh', cs, hc, he, rfl⟩ := effect_of_step hstep
  have hpublishes := (hok.cmd hc).2
  have hmove := move_of_effect he
  exact ⟨hlisted, h.toAwake.step hstep,
    fun k b hb ↦ (mem_expand_iff.1 hb).elim
      (fun hnew ↦ sends_new he hpublishes (h.commands i c (Good.mem_head hc)) hnew.2)
      fun hrest ↦ h.sends k b (mem_of_mem_rest hc hrest),
    h.publishes_step hc hmove, h.toBus_step hc hmove,
    forall_expand (h.commands_new hc he hpublishes)
      fun k d hd ↦ h.commands k d (mem_of_mem_rest hc hd)⟩

theorem initial (cfg : Config ι σ) : Publisher cfg (Mblue.initial cfg) where
  toListed := Listed.initial cfg
  toAwake := Awake.initial cfg
  sends := fun k b hb ↦ by rcases mem_initial hb with h | h <;> cases h
  publishes := fun m ↦ by
    have hcode : getType 0 = some .subscribe ∧ getMajor 0 = some ⟨0, by decide⟩ := by decide
    exact Message.publishes_iff.2 ⟨.inl hcode.1, _, hcode.2⟩
  toBus := fun m hm _ ↦ absurd (List.mem_finRange m) hm
  commands := fun k d hd ↦ by rcases mem_initial hd with rfl | rfl <;> rfl

/-! ### Nothing blocks -/

/-- A message in a queue has a handler. -/
theorem exists_handler (h : Publisher cfg s) {m : MsgId} (hm : m ∈ s.shared.mq i) :
    ∃ ms type handler, (s.shared.pool m).dst = some ms ∧ (s.shared.pool m).type = some type ∧
      getHandler cfg ms m type = some handler := by
  obtain ⟨ms, hdst, -⟩ := h.routed i m hm
  obtain ⟨htype | htype, -⟩ := Message.publishes_iff.1 (h.publishes m)
  · have hbus := h.toBus m (h.not_free_of_mq hm) htype
    exact ⟨_, _, _, hbus, htype, if_pos rfl⟩
  · by_cases hms : ms = cfg.bus
    · exact ⟨ms, _, _, hdst, htype, if_pos hms⟩
    · exact ⟨ms, _, _, hdst, htype, if_neg hms⟩

/-- **Every pending command can be executed**, unless it is the loop of a task without a message, or
`bus_signal` without a free message for a replica. -/
theorem ready (h : Publisher cfg s) (hwired : Wired cfg) (hc : s.threads i = c :: rest) :
    (c = .templateProc ∧ s.shared.msgSem i = 0) ∨
      (s.shared.msgList = [] ∧ ∃ m ms subs, c = .busSignalLoop m (ms :: subs)) ∨
      ∃ a, isInternal c a = true ∧ (runCmd cfg i c a s.shared).isSome = true := by
  have hhead := Good.mem_head hc
  have hcommand := h.commands i c hhead
  cases c with
  | templateProc =>
    by_cases hsem : s.shared.msgSem i = 0
    · exact .inl ⟨rfl, hsem⟩
    · refine .inr (.inr ⟨.go, rfl, ?_⟩)
      rw [runCmd, runTemplateProc, if_neg hsem]
      rfl
  | remove =>
    obtain ⟨m, tail, hmq⟩ := List.exists_cons_of_ne_nil (h.mq_ne_nil hc)
    obtain ⟨ms, type, handler, hdst, htype, hhandler⟩ :=
      h.exists_handler (i := i) (hmq ▸ List.mem_cons_self)
    refine .inr (.inr ⟨.go, rfl, ?_⟩)
    rw [runCmd, runRemove, hmq]
    dsimp only
    rw [hdst, htype, Option.bind_eq_bind, Option.bind_some, Option.bind_eq_bind, Option.bind_some,
      hhandler]
    rfl
  | userCode k =>
    refine .inr (.inr ⟨.finish 0, rfl, ?_⟩)
    cases k with
    | app | log | signal => rfl
    | _ => cases hcommand
  | send b =>
    obtain ⟨-, t, hctx⟩ := h.sends i b hhead
    refine .inr (.inr ⟨.go, rfl, ?_⟩)
    rw [runCmd, runSend]
    split
    · rfl
    · rw [hctx]
      rfl
  | post u m =>
    refine .inr (.inr ⟨.go, rfl, ?_⟩)
    rw [runCmd, runPost]
    split <;> rfl
  | syncCheck m o =>
    refine .inr (.inr ⟨.go, rfl, ?_⟩)
    -- nobody waits for a signal or a subscription
    have hother : (s.shared.pool m).type ≠ some .syncCall := fun htype ↦ by
      obtain ⟨htypes, -⟩ := Message.publishes_iff.1 (h.publishes m)
      rw [htype] at htypes
      rcases htypes with htypes | htypes <;> cases htypes
    rw [runCmd, runSyncCheck, if_neg hother]
    rfl
  | handleSubscribe m =>
    obtain ⟨-, major, hmajor⟩ := Message.publishes_iff.1 (h.publishes m)
    obtain ⟨ms, haux, -⟩ := h.message m (h.not_free hhead rfl) (h.knows i _ hhead).2.1
    refine .inr (.inr ⟨.go, rfl, ?_⟩)
    rw [runCmd, runHandleSubscribe, haux, hmajor]
    rfl
  | busSignal m =>
    obtain ⟨-, major, hmajor⟩ := Message.publishes_iff.1 (h.publishes m)
    refine .inr (.inr ⟨.go, rfl, ?_⟩)
    rw [runCmd, runBusSignal, hmajor]
    rfl
  | busSignalLoop m subs =>
    cases subs with
    | nil => exact .inr (.inr ⟨.go, rfl, rfl⟩)
    | cons ms subs =>
      by_cases hlist : s.shared.msgList = []
      · exact .inr (.inl ⟨hlist, m, ms, subs, rfl⟩)
      · -- the segment is bound to a task, and there is a message for its replica
        obtain ⟨-, t, hctx⟩ := h.looping i m _ hhead ms List.mem_cons_self
        obtain ⟨p, hp⟩ := Option.ne_none_iff_exists'.1
          (alloc_ne_none h.toGood hlist (replicate (s.shared.pool m) ms))
        refine .inr (.inr ⟨.go, rfl, ?_⟩)
        rw [runCmd, runBusSignalLoop]
        dsimp only
        rw [hctx]
        dsimp only
        rw [hp]
        rfl
  | signalHandler ms m =>
    refine .inr (.inr ⟨.go, rfl, ?_⟩)
    rw [runCmd, runSignalHandler]
    cases hfind : findHandler (cfg.signalItems ms) (s.shared.pool m).minor with
    | none => rfl
    | some f =>
      obtain ⟨item, hitem, rfl⟩ := Option.map_eq_some_iff.1 hfind
      dsimp only
      rw [if_neg (hwired.handler_ne ms item (List.mem_of_find?_eq_some hitem))]
      rfl
  | finish m =>
    refine .inr (.inr ⟨.go, rfl, ?_⟩)
    rw [runCmd, runFinish]
    split <;> rfl
  | semPost | busSubscribe | release => exact .inr (.inr ⟨.go, rfl, rfl⟩)
  | _ => cases hcommand

end Publisher

end Steps

end Mblue
