import Mblue.System.Machine

/-!
# What a step can do

`Effect cfg i c a sh sh' cs` lists the outcomes of a command: thread `i` executes `c` under the
choice `a`, the shared state goes from `sh` to `sh'`, and `c` is replaced by `cs`. Each constructor
is one path through the source with its guards, where the end of a match in `bus_call_return` is one
step. `effect_of_runFused` says that the list is complete; every invariant of the system is proved
by cases on it and never unfolds a command.

One path of the source is missing from the list because it cannot be taken: `default_ipc_handler`
never finds the word of a handler to be `MBLUE_REMOTE_CALL_PENDING`, since `GET_INTEGER` yields no
negative number (`answerRequest_eq_some`).
-/

namespace Mblue

variable {ι σ : Type} [DecidableEq ι] [DecidableEq σ]

/-- The outcomes of a command. -/
inductive Effect (cfg : Config ι σ) (i : ι) :
    Cmd ι σ → Choice ι σ → Shared ι σ → Shared ι σ → List (Cmd ι σ) → Prop
  | pendFailed {sh} : Effect cfg i .templateProc .fail sh sh [.templateProc]
  | pendTaken {sh} (hsem : sh.msgSem i ≠ 0) :
      Effect cfg i .templateProc .go sh
        { sh with msgSem := Function.update sh.msgSem i (sh.msgSem i - 1) } [.remove, .templateProc]
  | removed {a sh m rest ms type handler} (hmq : sh.mq i = m :: rest)
      (hdst : (sh.pool m).dst = some ms) (htype : (sh.pool m).type = some type)
      (hhandler : getHandler cfg ms m type = some handler) :
      Effect cfg i .remove a sh { sh with mq := Function.update sh.mq i rest } [handler]
  | userMalloc {k p block sh} (hp : pbPayload p = true) (hfree : sh.heap p = none) :
      Effect cfg i (.userCode k) (.malloc p block) sh (sh.mallocPayload p block) [.userCode k]
  | userCall {k f sh} (hmay : mayCall k f = true) :
      Effect cfg i (.userCode k) (.api f) sh (callApi cfg i sh f).1
        ((callApi cfg i sh f).2 ++ [.userCode k])
  | userFailed {k sh} : Effect cfg i (.userCode k) .fail sh sh [.userCode k]
  | appFinished {w sh} : Effect cfg i (.userCode .app) (.finish w) sh sh []
  | logFinished {w sh} : Effect cfg i (.userCode .log) (.finish w) sh sh []
  | notifyFinished {p v w sh} : Effect cfg i (.userCode (.notify p v)) (.finish w) sh sh []
  | signalFinished {ms m w sh} :
      Effect cfg i (.userCode (.signal ms m)) (.finish w) sh sh [.finish m]
  | serviceFinished {ms m f args w sh major} (hmajor : (sh.pool m).major = some major) :
      Effect cfg i (.userCode (.service ms m f args)) (.finish w) sh sh
        [.send (ipcReturnArgs cfg i major (sh.pool m).seq w), .finish m]
  | sendFailed {args a sh} (hnone : sh.alloc (initMessage cfg args) = none) :
      Effect cfg i (.send args) a sh sh []
  | sendDone {args a sh m sh' t} (halloc : sh.alloc (initMessage cfg args) = some (m, sh'))
      (hctx : cfg.context (args.dst.getD cfg.bus) = some t) :
      Effect cfg i (.send args) a sh sh' [.post t m, .syncCheck m args.out]
  | postFull {t m a sh} (hfull : cfg.capacity t ≤ (sh.mq t).length) :
      Effect cfg i (.post t m) a sh sh []
  | postDone {t m a sh} (hroom : (sh.mq t).length < cfg.capacity t) :
      Effect cfg i (.post t m) a sh
        { sh with mq := Function.update sh.mq t (sh.mq t ++ [m]) } [.semPost t]
  | semPosted {t a sh} :
      Effect cfg i (.semPost t) a sh
        { sh with msgSem := Function.update sh.msgSem t (sh.msgSem t + 1) } []
  | checkedOther {m c a sh} (htype : (sh.pool m).type ≠ some .syncCall) :
      Effect cfg i (.syncCheck m c) a sh sh []
  | checkedNull {m c a sh} (htype : (sh.pool m).type = some .syncCall)
      (hsrc : (sh.pool m).src = .null) : Effect cfg i (.syncCheck m c) a sh sh []
  | checkedTask {m c a sh t} (htype : (sh.pool m).type = some .syncCall)
      (hsrc : (sh.pool m).src = .task t) : Effect cfg i (.syncCheck m c) a sh sh [.tpend t c]
  | tpendFailed {t c sh} : Effect cfg i (.tpend t c) .fail sh sh []
  | tpendTaken {t c sh d rest} (hsem : sh.callSem t = d :: rest) :
      Effect cfg i (.tpend t c) .go sh
        (c.elim { sh with callSem := Function.update sh.callSem t rest }
          (Shared.takeToken { sh with callSem := Function.update sh.callSem t rest } · d)) []
  | callReturned {c a sh} : Effect cfg i (.remoteReturn c) a sh (sh.returnCell c) []
  | subscribeReleased {m a sh ms major} (haux : (sh.pool m).aux = .extra ms)
      (hmajor : (sh.pool m).major = some major) :
      Effect cfg i (.handleSubscribe m) a sh (sh.release m) [.busSubscribe ms major]
  | subscribed {ms major a sh} (hmem : a ≠ .fail) :
      Effect cfg i (.busSubscribe ms major) a sh
        ((sh.subscribe ms major).log (.subscribed ms major)) []
  | signalUnheard {m a sh major} (hmajor : (sh.pool m).major = some major)
      (hsubs : sh.publishList major = []) :
      Effect cfg i (.busSignal m) a sh (sh.log (.relayed (sh.pool m).draw major []))
        [.userCode .log, .release m]
  | signalRelayed {m a sh major} (hmajor : (sh.pool m).major = some major)
      (hsubs : sh.publishList major ≠ []) :
      Effect cfg i (.busSignal m) a sh
        (sh.log (.relayed (sh.pool m).draw major (sh.publishList major)))
        [.busSignalLoop m (sh.publishList major)]
  | loopDone {m a sh} : Effect cfg i (.busSignalLoop m []) a sh sh [.release m]
  | loopSkipped {m ms subs a sh} (hctx : cfg.context ms = none) :
      Effect cfg i (.busSignalLoop m (ms :: subs)) a sh sh [.busSignalLoop m subs]
  | loopReplicated {m ms subs a sh t r sh'} (hctx : cfg.context ms = some t)
      (halloc : sh.alloc (replicate (sh.pool m) ms) = some (r, sh')) :
      Effect cfg i (.busSignalLoop m (ms :: subs)) a sh
        (sh'.log (.replica (sh.pool m) (replicate (sh.pool m) ms)))
        [.post t r, .busSignalLoop m subs]
  | callNoSegment {m a sh major} (hmajor : (sh.pool m).major = some major)
      (hnode : ∀ ms, cfg.node major = some ms → cfg.context ms = none) :
      Effect cfg i (.busCall m) a sh sh [.userCode .log]
  | callNoEntry {m a sh major ms t} (hmajor : (sh.pool m).major = some major)
      (hnode : cfg.node major = some ms) (hctx : cfg.context ms = some t)
      (hentry : pendingCall (sh.pool m) m = none) :
      Effect cfg i (.busCall m) a sh (sh.forward m ms) [.post t m]
  | callNoMemory {m sh major ms t e} (hmajor : (sh.pool m).major = some major)
      (hnode : cfg.node major = some ms) (hctx : cfg.context ms = some t)
      (hentry : pendingCall (sh.pool m) m = some e) :
      Effect cfg i (.busCall m) .fail sh sh [.userCode .log]
  | callLinked {m a sh major ms t e} (hmajor : (sh.pool m).major = some major)
      (hnode : cfg.node major = some ms) (hctx : cfg.context ms = some t)
      (hentry : pendingCall (sh.pool m) m = some e) :
      Effect cfg i (.busCall m) a sh
        (((sh.link major e).log (.linked major e (sh.pool m).seq)).forward m ms) [.post t m]
  | returnNoCalls {d a sh major} (hmajor : (sh.pool d).major = some major)
      (hempty : sh.callList major = []) :
      Effect cfg i (.busCallReturn d) a sh sh [.userCode .log, .release d]
  | returnUnmatched {d a sh major} (hmajor : (sh.pool d).major = some major)
      (hne : sh.callList major ≠ [])
      (hno : ∀ e ∈ sh.callList major, (sh.pool e.msg).seq ≠ (sh.pool d).seq) :
      Effect cfg i (.busCallReturn d) a sh sh [.release d]
  | returnOther {d a sh major e} (hmajor : (sh.pool d).major = some major)
      (hfind : (sh.callList major).find? (fun e ↦ (sh.pool e.msg).seq == (sh.pool d).seq) = some e)
      (hother : e.callType.isCall = false ∨
        e.callType = .syncCall ∧ (sh.pool e.msg).src = .null) :
      Effect cfg i (.busCallReturn d) a sh sh [.complete major e, .release d]
  | returnSync {d a sh major e t c} (hmajor : (sh.pool d).major = some major)
      (hfind : (sh.callList major).find? (fun e ↦ (sh.pool e.msg).seq == (sh.pool d).seq) = some e)
      (htype : e.callType = .syncCall) (hsrc : (sh.pool e.msg).src = .task t)
      (haux : (sh.pool e.msg).aux = .ipcReturn c) :
      Effect cfg i (.busCallReturn d) a sh
        ((sh.writeCell c major (sh.pool d).seq (sh.pool d).smartPayload).log
          (.wrote c (sh.pool d).smartPayload))
        [.tpost t c, .complete major e, .release d]
  | returnAsync {d a sh major e p} (hmajor : (sh.pool d).major = some major)
      (hfind : (sh.callList major).find? (fun e ↦ (sh.pool e.msg).seq == (sh.pool d).seq) = some e)
      (htype : e.callType = .asyncCall) (hnotifier : e.notifier = some p) :
      Effect cfg i (.busCallReturn d) a sh (sh.log (.notified p (sh.pool d).smartPayload))
        [.userCode (.notify p (sh.pool d).smartPayload), .freeNotifier p, .complete major e,
          .release d]
  | tposted {t c a sh} :
      Effect cfg i (.tpost t c) a sh
        (Shared.log { sh with callSem := Function.update sh.callSem t (sh.callSem t ++ [c]) }
          (.posted t c)) []
  | notifierFreed {p a sh} : Effect cfg i (.freeNotifier p) a sh (sh.log (.notifierFreed p)) []
  | completed {major e a sh} :
      Effect cfg i (.complete major e) a sh
        (((sh.release e.msg).unlink major e).log (.unlinked major e)) []
  | released {m a sh} : Effect cfg i (.release m) a sh (sh.release m) []
  | signalUnhandled {ms m a sh} (hno : findHandler (cfg.signalItems ms) (sh.pool m).minor = none) :
      Effect cfg i (.signalHandler ms m) a sh (sh.log (.handled ms (sh.pool m).draw)) [.finish m]
  | signalCalled {ms m a sh h} (hsome : findHandler (cfg.signalItems ms) (sh.pool m).minor = some h)
      (hne : h ≠ 0) :
      Effect cfg i (.signalHandler ms m) a sh
        ((sh.log (.handled ms (sh.pool m).draw)).log
          (.called ms (sh.pool m).draw (sh.pool m).smartPayload))
        [.userCode (.signal ms m)]
  | requestUndecodable {ms m a sh payload} (hpayload : payloadBlock (sh.pool m) sh = some payload)
      (hread : readRequest payload (cfg.findIpcHandlerFromService ms (sh.pool m).minor) =
        .ok .headerFailed) :
      Effect cfg i (.ipcHandler ms m) a sh sh []
  | requestUnhandled {ms m a sh payload} (hpayload : payloadBlock (sh.pool m) sh = some payload)
      (hread : readRequest payload (cfg.findIpcHandlerFromService ms (sh.pool m).minor) =
        .ok .noHandler) :
      Effect cfg i (.ipcHandler ms m) a sh sh [.finish m]
  | requestRefused {ms m a sh payload w major}
      (hpayload : payloadBlock (sh.pool m) sh = some payload)
      (hread : readRequest payload (cfg.findIpcHandlerFromService ms (sh.pool m).minor) =
        .ok (.parsed (.ret w)))
      (hmajor : (sh.pool m).major = some major) :
      Effect cfg i (.ipcHandler ms m) a sh sh
        [.send (ipcReturnArgs cfg i major (sh.pool m).seq w), .finish m]
  | requestCalled {ms m a sh payload args}
      (hpayload : payloadBlock (sh.pool m) sh = some payload)
      (hread : readRequest payload (cfg.findIpcHandlerFromService ms (sh.pool m).minor) =
        .ok (.parsed (.call args))) :
      Effect cfg i (.ipcHandler ms m) a sh sh
        [.userCode (.service ms m (cfg.findIpcHandlerFromService ms (sh.pool m).minor) args)]
  | finishedPayload {m a sh} (hp : pbPayload (sh.pool m).smartPayload = true) :
      Effect cfg i (.finish m) a sh
        ((sh.freePayload (sh.pool m).smartPayload).log
          (.freed (sh.pool m).draw (sh.pool m).smartPayload))
        [.release m]
  | finishedPlain {m a sh} (hp : pbPayload (sh.pool m).smartPayload = false) :
      Effect cfg i (.finish m) a sh sh [.release m]

/-- What `get_handler` of a segment returns for a message: the bus has a handler for every type, the
other segments the default ones. -/
inductive Handles (cfg : Config ι σ) (ms : σ) (m : MsgId) : MessageType → Cmd ι σ → Prop
  | subscribe (hbus : ms = cfg.bus) : Handles cfg ms m .subscribe (.handleSubscribe m)
  | busSignal (hbus : ms = cfg.bus) : Handles cfg ms m .signal (.busSignal m)
  | busCall {type} (hbus : ms = cfg.bus) (hcall : type.isCall = true) :
      Handles cfg ms m type (.busCall m)
  | busCallReturn (hbus : ms = cfg.bus) : Handles cfg ms m .callReturn (.busCallReturn m)
  | signal (hbus : ms ≠ cfg.bus) : Handles cfg ms m .signal (.signalHandler ms m)
  | call {type} (hbus : ms ≠ cfg.bus) (hcall : type.isCall = true) :
      Handles cfg ms m type (.ipcHandler ms m)

/-! ### The list is complete -/

section Complete

variable {cfg : Config ι σ} {i : ι} {a : Choice ι σ} {sh sh' : Shared ι σ} {cs : List (Cmd ι σ)}

omit [DecidableEq ι] [DecidableEq σ] in
/-- A word is never read as the pending code, so a request is always answered at once. -/
theorem answerRequest_eq_some {msg : Message ι σ} {m : MsgId} {w : Word}
    (h : answerRequest cfg i msg m w = some cs) :
    ∃ major, msg.major = some major ∧
      cs = [.send (ipcReturnArgs cfg i major msg.seq w), .finish m] := by
  have hnever : toErrcode (getInteger w) ≠ MblueErrcode.remoteCallPending.toInt := by
    have := toErrcode_getInteger_nonneg w
    intro heq
    rw [heq] at this
    exact absurd this (by decide)
  unfold answerRequest at h
  rw [beq_false_of_ne hnever, Bool.and_false, if_neg (by decide), Option.map_eq_some_iff] at h
  obtain ⟨major, hmajor, rfl⟩ := h
  exact ⟨major, hmajor, rfl⟩

omit [DecidableEq ι] in
/-- **The handlers there are.** -/
theorem handles_of_getHandler {ms : σ} {m : MsgId} {type : MessageType} {handler : Cmd ι σ}
    (h : getHandler cfg ms m type = some handler) : Handles cfg ms m type handler := by
  by_cases hbus : ms = cfg.bus <;> cases type <;>
    simp only [getHandler, hbus, if_true, if_false, Option.some.injEq, reduceCtorEq] at h <;>
    subst h
  · exact .subscribe hbus
  · exact .busSignal hbus
  · exact .busCall hbus rfl
  · exact .busCall hbus rfl
  · exact .busCallReturn hbus
  · exact .signal hbus
  · exact .call hbus rfl
  · exact .call hbus rfl

theorem effect_of_runUserCode {k : UserCode ι σ}
    (h : runUserCode cfg i k a sh = some (sh', cs)) : Effect cfg i (.userCode k) a sh sh' cs := by
  unfold runUserCode at h
  split at h
  · split at h
    · next hp =>
      obtain ⟨rfl, rfl⟩ := Prod.mk.inj (Option.some.inj h)
      exact .userMalloc hp.1 hp.2
    · cases h
  · split at h
    · next hmay =>
      obtain ⟨rfl, rfl⟩ := Prod.mk.inj (Option.some.inj h)
      exact .userCall hmay
    · cases h
  · obtain ⟨cs', hcs, heq⟩ := Option.map_eq_some_iff.1 h
    obtain ⟨rfl, rfl⟩ := Prod.mk.inj heq
    cases k with
    | app => cases hcs; exact .appFinished
    | log => cases hcs; exact .logFinished
    | signal ms m => cases hcs; exact .signalFinished
    | service ms m f args =>
      obtain ⟨major, hmajor, rfl⟩ := answerRequest_eq_some hcs
      exact .serviceFinished hmajor
    | notify p v => cases hcs; exact .notifyFinished
  · cases h; exact .userFailed
  · cases h

theorem effect_of_runTemplateProc (h : runTemplateProc i a sh = some (sh', cs)) :
    Effect cfg i .templateProc a sh sh' cs := by
  unfold runTemplateProc at h
  split at h
  · cases h; exact .pendFailed
  · split at h
    · cases h
    · next hsem => cases h; exact .pendTaken hsem
  · cases h

theorem effect_of_runRemove (h : runRemove cfg i sh = some (sh', cs)) :
    Effect cfg i .remove a sh sh' cs := by
  unfold runRemove at h
  split at h
  · cases h
  · next m rest hmq =>
    obtain ⟨ms, hdst, h⟩ := Option.bind_eq_some_iff.1 h
    obtain ⟨type, htype, h⟩ := Option.bind_eq_some_iff.1 h
    obtain ⟨handler, hhandler, h⟩ := Option.bind_eq_some_iff.1 h
    cases h
    exact .removed hmq hdst htype hhandler

theorem effect_of_runSend {args : SendArgs ι σ} (h : runSend cfg args sh = some (sh', cs)) :
    Effect cfg i (.send args) a sh sh' cs := by
  unfold runSend at h
  split at h
  · next hnone => cases h; exact .sendFailed hnone
  · next m sh₁ halloc =>
    obtain ⟨t, hctx, heq⟩ := Option.map_eq_some_iff.1 h
    cases heq
    exact .sendDone halloc hctx

theorem effect_of_runPost {t : ι} {m : MsgId} (h : runPost cfg t m sh = some (sh', cs)) :
    Effect cfg i (.post t m) a sh sh' cs := by
  unfold runPost Shared.queueAdd at h
  by_cases hfull : cfg.capacity t ≤ (sh.mq t).length
  · simp only [if_pos hfull] at h
    cases h
    exact .postFull hfull
  · simp only [if_neg hfull] at h
    cases h
    exact .postDone (Nat.lt_of_not_le hfull)

theorem effect_of_runSyncCheck {m : MsgId} {c : Option CellId}
    (h : runSyncCheck m c sh = some (sh', cs)) : Effect cfg i (.syncCheck m c) a sh sh' cs := by
  unfold runSyncCheck at h
  split at h
  · next htype =>
    split at h
    · next hsrc => cases h; exact .checkedNull htype hsrc
    · next t hsrc => cases h; exact .checkedTask htype hsrc
    · cases h
  · next htype => cases h; exact .checkedOther htype

theorem effect_of_runTpend {t : ι} {c : Option CellId} (h : runTpend t c a sh = some (sh', cs)) :
    Effect cfg i (.tpend t c) a sh sh' cs := by
  unfold runTpend at h
  split at h
  · cases h; exact .tpendFailed
  · split at h
    · cases h
    · next d rest hsem => cases h; exact .tpendTaken hsem
  · cases h

theorem effect_of_runHandleSubscribe {m : MsgId} (h : runHandleSubscribe m sh = some (sh', cs)) :
    Effect cfg i (.handleSubscribe m) a sh sh' cs := by
  unfold runHandleSubscribe at h
  split at h
  · next ms major haux hmajor => cases h; exact .subscribeReleased haux hmajor
  · cases h

theorem effect_of_runBusSubscribe {ms : σ} {major : Major}
    (h : runBusSubscribe ms major a sh = some (sh', cs)) :
    Effect cfg i (.busSubscribe ms major) a sh sh' cs := by
  unfold runBusSubscribe at h
  split at h
  · cases h
  · next hmem => cases h; exact .subscribed hmem

theorem effect_of_runBusSignal {m : MsgId} (h : runBusSignal m sh = some (sh', cs)) :
    Effect cfg i (.busSignal m) a sh sh' cs := by
  unfold runBusSignal at h
  obtain ⟨major, hmajor, heq⟩ := Option.map_eq_some_iff.1 h
  simp only at heq
  split at heq
  · next hsubs => cases heq; rw [hsubs]; exact .signalUnheard hmajor hsubs
  · next hsubs => cases heq; exact .signalRelayed hmajor hsubs

theorem effect_of_runBusSignalLoop {m : MsgId} {subs : List σ}
    (h : runBusSignalLoop cfg m subs sh = some (sh', cs)) :
    Effect cfg i (.busSignalLoop m subs) a sh sh' cs := by
  unfold runBusSignalLoop at h
  split at h
  · cases h; exact .loopDone
  · split at h
    · next hctx => cases h; exact .loopSkipped hctx
    · next hctx =>
      obtain ⟨⟨r, sh₁⟩, halloc, heq⟩ := Option.map_eq_some_iff.1 h
      cases heq
      exact .loopReplicated hctx halloc

theorem effect_of_runBusCall {m : MsgId} (h : runBusCall cfg m a sh = some (sh', cs)) :
    Effect cfg i (.busCall m) a sh sh' cs := by
  unfold runBusCall at h
  obtain ⟨major, hmajor, h⟩ := Option.bind_eq_some_iff.1 h
  split at h
  · next hnone =>
    cases h
    refine .callNoSegment hmajor fun ms hnode ↦ ?_
    rw [hnode, Option.bind_some, Option.map_eq_none_iff] at hnone
    exact hnone
  · next ms t hsome =>
    obtain ⟨ms', hnode, hmap⟩ := Option.bind_eq_some_iff.1 hsome
    obtain ⟨t', hctx, heq⟩ := Option.map_eq_some_iff.1 hmap
    obtain ⟨rfl, rfl⟩ := Prod.mk.inj heq
    split at h
    · next hentry => cases h; exact .callNoEntry hmajor hnode hctx hentry
    · next e hentry =>
      split at h
      · cases h; exact .callNoMemory hmajor hnode hctx hentry
      · cases h; exact .callLinked hmajor hnode hctx hentry

theorem effect_of_runBusCallReturn {d : MsgId} (h : runBusCallReturn d sh = some (sh', cs)) :
    Effect cfg i (.busCallReturn d) a sh sh' cs := by
  unfold runBusCallReturn at h
  obtain ⟨major, hmajor, h⟩ := Option.bind_eq_some_iff.1 h
  split at h
  · next hempty => cases h; exact .returnNoCalls hmajor hempty
  · next hne =>
    split at h
    · next hnone =>
      cases h
      refine .returnUnmatched hmajor hne fun e he ↦ ?_
      have := List.find?_eq_none.1 hnone e he
      rwa [beq_iff_eq] at this
    · next e hfind =>
      split at h
      · next htype =>
        split at h
        · next hsrc => cases h; exact .returnOther hmajor hfind (.inr ⟨htype, hsrc⟩)
        · next t c hsrc haux => cases h; exact .returnSync hmajor hfind htype hsrc haux
        · cases h
      · next htype =>
        obtain ⟨p, hp, heq⟩ := Option.map_eq_some_iff.1 h
        cases heq
        exact .returnAsync hmajor hfind htype hp
      · next hsync hasync =>
        cases h
        refine .returnOther hmajor hfind (.inl ?_)
        cases htype : e.callType <;> first | rfl | contradiction

theorem effect_of_runSignalHandler {ms : σ} {m : MsgId}
    (h : runSignalHandler cfg ms m sh = some (sh', cs)) :
    Effect cfg i (.signalHandler ms m) a sh sh' cs := by
  unfold runSignalHandler at h
  split at h
  · next hno => cases h; exact .signalUnhandled hno
  · next f hsome =>
    split at h
    · cases h
    · next hne => cases h; exact .signalCalled hsome hne

theorem effect_of_runIpcHandler {ms : σ} {m : MsgId}
    (h : runIpcHandler cfg i ms m sh = some (sh', cs)) :
    Effect cfg i (.ipcHandler ms m) a sh sh' cs := by
  unfold runIpcHandler at h
  obtain ⟨payload, hpayload, h⟩ := Option.bind_eq_some_iff.1 h
  simp only at h
  split at h
  · next hread => cases h; exact .requestUndecodable hpayload hread
  · next hread => cases h; exact .requestUnhandled hpayload hread
  · next w hread =>
    obtain ⟨cs', hcs, heq⟩ := Option.map_eq_some_iff.1 h
    obtain ⟨rfl, rfl⟩ := Prod.mk.inj heq
    obtain ⟨major, hmajor, rfl⟩ := answerRequest_eq_some hcs
    exact .requestRefused hpayload hread hmajor
  · next args hread => cases h; exact .requestCalled hpayload hread
  · cases h

theorem effect_of_runFinish {m : MsgId} (h : runFinish m sh = some (sh', cs)) :
    Effect cfg i (.finish m) a sh sh' cs := by
  unfold runFinish at h
  simp only at h
  split at h
  · next hp => cases h; exact .finishedPayload hp
  · next hp => cases h; exact .finishedPlain (Bool.eq_false_iff.2 hp)

/-- **Inversion**: every step of a command is one of the outcomes. -/
theorem effect_of_runFused {c : Cmd ι σ} (h : runFused cfg i c a sh = some (sh', cs)) :
    Effect cfg i c a sh sh' cs := by
  cases c with
  | templateProc => exact effect_of_runTemplateProc h
  | remove => exact effect_of_runRemove h
  | userCode k => exact effect_of_runUserCode h
  | send args => exact effect_of_runSend h
  | post t m => exact effect_of_runPost h
  | semPost t => cases h; exact .semPosted
  | syncCheck m c => exact effect_of_runSyncCheck h
  | tpend t c => exact effect_of_runTpend h
  | remoteReturn c => cases h; exact .callReturned
  | handleSubscribe m => exact effect_of_runHandleSubscribe h
  | busSubscribe ms major => exact effect_of_runBusSubscribe h
  | busSignal m => exact effect_of_runBusSignal h
  | busSignalLoop m subs => exact effect_of_runBusSignalLoop h
  | busCall m => exact effect_of_runBusCall h
  | busCallReturn d => exact effect_of_runBusCallReturn h
  | tpost t c => cases h; exact .tposted
  | freeNotifier p => cases h; exact .notifierFreed
  | complete major e => cases h; exact .completed
  | unlink major e => cases h
  | release m => cases h; exact .released
  | signalHandler ms m => exact effect_of_runSignalHandler h
  | ipcHandler ms m => exact effect_of_runIpcHandler h
  | finish m => exact effect_of_runFinish h

end Complete

/-- A step of the fused system, taken apart: the thread, its first command, and the outcome. -/
theorem effect_of_step {cfg : Config ι σ} {s t : State ι σ} {i : ι} {a : Choice ι σ}
    (h : (fused cfg).step s (i, a) = some t) :
    ∃ c rest sh' cs, s.threads i = c :: rest ∧ Effect cfg i c a s.shared sh' cs ∧
      t = ⟨sh', Function.update s.threads i (cs ++ rest)⟩ := by
  obtain ⟨c, rest, sh', cs, hc, hrun, rfl⟩ := (fused cfg).step_eq_some_iff.1 h
  exact ⟨c, rest, sh', cs, hc, effect_of_runFused hrun, rfl⟩

end Mblue
