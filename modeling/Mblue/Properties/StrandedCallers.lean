import Mblue.System.CallEvents
import Mblue.System.Replies

/-!
# No caller is stranded

A task that waits in `ipc_invoke` for the return of its synchronous call waits until someone posts
its `call_sem`, and nobody but `bus_call_return` does. So there must be something left that leads to
a return (`NotStranded`): the bus has the request, or a pending call refers to it and a return with
its numbers is to come.

The second half is what the tally of `System/Replies.lean` counts. The first is the invariant
`Followed`: each request that carries the cell of a call is the one made for it, and as long as the
call has no answer its request is on its way to the bus or has an entry (`UnderWay`). It holds in
every run in which no request or return is lost (`Answerable`); the early exit of `bus_call` loses
one, and the caller waits for ever (`not_notStranded_noSegment`).
-/

set_option linter.unusedSectionVars false

namespace Mblue

variable {ι σ : Type}

/-! ### What is expected -/

/-- The message has these numbers. -/
def HasNumber (sh : Shared ι σ) (m : MsgId) (k : CallNumber) : Prop :=
  (sh.pool m).major = some k.major ∧ (sh.pool m).seq = k.seq

/-- The message is in the bus's queue, or `bus_call` is handling it. -/
inductive BusHas (cfg : Config ι σ) (s : State ι σ) (m : MsgId) : Prop
  | queued (h : m ∈ s.shared.mq cfg.busTask)
  | handled (h : .busCall m ∈ s.threads cfg.busTask)
  | passed {t} (h : .post t m ∈ s.threads cfg.busTask)

/-- A return with these numbers is to come: the service has a request, or the bus has a return. -/
inductive ReplyToCome (cfg : Config ι σ) (s : State ι σ) (k : CallNumber) : Prop
  /-- `bus_call` is about to put a request into the queue of a service's task. -/
  | passed {t m} (hcall : (s.shared.pool m).isCall = true) (hk : HasNumber s.shared m k)
      (h : .post t m ∈ s.threads cfg.busTask)
  /-- A request is in the queue of a service's task. -/
  | queued {ms t m} (hcall : (s.shared.pool m).isCall = true) (hk : HasNumber s.shared m k)
      (hms : ms ≠ cfg.bus) (hctx : cfg.context ms = some t) (h : m ∈ s.shared.mq t)
  /-- `default_ipc_handler` is handling a request. -/
  | handled {i ms m} (hk : HasNumber s.shared m k) (h : .ipcHandler ms m ∈ s.threads i)
  /-- A service's handler was called for a request and has not returned. -/
  | called {i ms m f args} (hk : HasNumber s.shared m k)
      (h : .userCode (.service ms m f args) ∈ s.threads i)
  /-- `ipc_return` was called. -/
  | sent {i a} (htype : a.type = .callReturn) (hk : CallNumber.mk a.major a.seq = k)
      (h : .send a ∈ s.threads i)
  /-- A return is about to be put into the bus's queue. -/
  | posted {i t d} (htype : (s.shared.pool d).type = some .callReturn)
      (hk : HasNumber s.shared d k) (h : .post t d ∈ s.threads i)
  /-- A return is in the bus's queue. -/
  | returned {d} (htype : (s.shared.pool d).type = some .callReturn)
      (hk : HasNumber s.shared d k) (h : d ∈ s.shared.mq cfg.busTask)
  /-- `bus_call_return` is about to look for the entry of a return. -/
  | matched {d} (hk : HasNumber s.shared d k) (h : .busCallReturn d ∈ s.threads cfg.busTask)
  /-- `bus_call_return` has found an entry for a return, and is to remove it. -/
  | completed {major e} (hk : CallNumber.mk major (s.shared.pool e.msg).seq = k)
      (h : .complete major e ∈ s.threads cfg.busTask)

/-- **No caller is stranded.** For every task that waits in `ipc_invoke` for a call without answer,
the bus has the call's request, or an entry refers to it and a return with its numbers is to
come. -/
def NotStranded (cfg : Config ι σ) (s : State ι σ) : Prop :=
  ∀ i t x rest, cfg.isTask i = true → s.threads i = .tpend t (some x) :: rest →
    (s.shared.cells x).answers = [] → ∃ m, (s.shared.pool m).aux = .ipcReturn x ∧
      HasNumber s.shared m ⟨(s.shared.cells x).major, (s.shared.cells x).seq⟩ ∧
      (BusHas cfg s m ∨
        (∃ e ∈ s.shared.callList (s.shared.cells x).major, e.msg = m) ∧
          ReplyToCome cfg s ⟨(s.shared.cells x).major, (s.shared.cells x).seq⟩)

/-! ### The invariant -/

section Invariant

variable [Fintype ι] [DecidableEq ι] [DecidableEq σ]

/-- The call a command of `ipc_invoke` waits for, or is going to. -/
def Cmd.waits? : Cmd ι σ → Option CellId
  | .syncCheck _ o | .tpend _ o => o
  | _ => none

/-- What is known of the call a command is for. -/
def Cmd.Follows (cfg : Config ι σ) (sh : Shared ι σ) (i : ι) : Cmd ι σ → Prop
  | .send a => ∀ x, a.out = some x → x < sh.ncells ∧ (sh.cells x).caller = i ∧
    a.type = .syncCall ∧ a.src = cfg.getCurrentContext i ∧ a.major = (sh.cells x).major ∧
      a.seq = (sh.cells x).seq
  | .syncCheck _ o | .tpend _ o => ∀ x, o = some x → x < sh.ncells ∧ (sh.cells x).caller = i
  | .post _ m => (sh.pool m).isCall = true → i = cfg.busTask ∨ (sh.pool m).dst = some cfg.bus ∧
    ∀ x, (sh.pool m).aux = .ipcReturn x → (sh.cells x).caller = i
  | .complete _ e => ∀ x, (sh.pool e.msg).aux = .ipcReturn x →
    cfg.isTask (sh.cells x).caller = true → (sh.cells x).answers ≠ []
  | _ => True

/-- The request of the call is on its way to the bus, or has an entry. -/
def UnderWay (cfg : Config ι σ) (s : State ι σ) (x : CellId) : Prop :=
  ∃ m, (s.shared.pool m).aux = .ipcReturn x ∧
    ((s.shared.pool m).dst = some cfg.bus ∧ Circulates s m ∨
      ∃ major, ∃ e ∈ s.shared.callList major, e.msg = m)

/-- Each synchronous call is followed to its entry. -/
structure Followed (cfg : Config ι σ) (s : State ι σ) : Prop extends Replied cfg s where
  bearer : ∀ m, m ∉ s.shared.msgList → ∀ x, (s.shared.pool m).aux = .ipcReturn x →
    x < s.shared.ncells ∧ (s.shared.pool m).type = some .syncCall ∧
      (s.shared.pool m).src = cfg.getCurrentContext (s.shared.cells x).caller ∧
      HasNumber s.shared m ⟨(s.shared.cells x).major, (s.shared.cells x).seq⟩
  return_dst : ∀ m, m ∉ s.shared.msgList → (s.shared.pool m).type = some .callReturn →
    (s.shared.pool m).dst = some cfg.bus
  follows : ∀ i, ∀ c ∈ s.threads i, c.Follows cfg s.shared i
  post_first : ∀ i, ∀ c ∈ (s.threads i).tail, ∀ t m, c ≠ .post t m
  waiting : ∀ i, ∀ c ∈ s.threads i, ∀ x, c.waits? = some x → cfg.isTask i = true →
    (s.shared.cells x).answers = [] → UnderWay cfg s x

variable {cfg : Config ι σ} {s : State ι σ} {i j : ι} {c d : Cmd ι σ} {a : Choice ι σ}
  {rest cs : List (Cmd ι σ)} {sh sh' : Shared ι σ} {x : CellId} {m : MsgId}

namespace Followed

/-! ### One step -/

theorem bearer_step (h : Followed cfg s) (hc : s.threads i = c :: rest)
    (he : Effect cfg i c a s.shared sh' cs) : ∀ m, m ∉ sh'.msgList → ∀ x,
      (sh'.pool m).aux = .ipcReturn x → x < sh'.ncells ∧ (sh'.pool m).type = some .syncCall ∧
        (sh'.pool m).src = cfg.getCurrentContext (sh'.cells x).caller ∧
        HasNumber sh' m ⟨(sh'.cells x).major, (sh'.cells x).seq⟩ := by
  have hmove := move_of_effect he
  intro m hm x haux
  rcases hmove.origin hm with hold | ⟨⟨args, rfl, hpool⟩ | ⟨n, ms, subs, rfl, hpool⟩, -⟩
  · have hheader := hmove.header_eq hold
    rw [Message.aux_eq hheader] at haux
    obtain ⟨hlt, htype, hsrc, hmajor, hseq⟩ := h.bearer m hold x haux
    have hsame := he.sameCall hlt
    rw [HasNumber, Message.type_eq hheader, Message.src_eq hheader, Message.major_eq hheader,
      Message.seq_eq hheader, hsame.caller_eq, hsame.major_eq, hsame.seq_eq]
    exact ⟨hsame.lt, htype, hsrc, hmajor, hseq⟩
  · rw [hpool] at haux
    obtain ⟨htype, hout⟩ := out_of_initMessage haux
    obtain ⟨hlt, hcaller, -, hsrc, hmajor, hseq⟩ := h.follows i _ (Good.mem_head hc) x hout
    have hsame := he.sameCall hlt
    rw [HasNumber, hpool, hsame.caller_eq, hsame.major_eq, hsame.seq_eq, hcaller, ← hsrc, ← hmajor,
      ← hseq, ← htype]
    exact ⟨hsame.lt, getType_mkCode _ _ _, rfl, getMajor_mkCode _ _ _, rfl⟩
  · -- what is copied to subscribers is a signal
    rw [hpool] at haux
    have htype := (h.bearer n (h.not_free (Good.mem_head hc) rfl) x haux).2.1
    rw [(h.knows i _ (Good.mem_head hc)).2.1] at htype
    cases htype

theorem return_dst_step (h : Followed cfg s) (hc : s.threads i = c :: rest)
    (hmove : Move cfg i c s.shared sh' cs) : ∀ m, m ∉ sh'.msgList →
      (sh'.pool m).type = some .callReturn → (sh'.pool m).dst = some cfg.bus := by
  intro m hm htype
  rcases hmove.origin hm with hold | ⟨⟨args, rfl, hpool⟩ | ⟨n, ms, subs, rfl, hpool⟩, -⟩
  · rw [Message.type_eq (hmove.header_eq hold)] at htype
    have hne : c ≠ .busCall m := by
      rintro rfl
      have hcall := (h.knows i _ (Good.mem_head hc)).2.1
      rw [Message.isCall_of_type htype] at hcall
      cases hcall
    rw [hmove.dst_eq hold hne]
    exact h.return_dst m hold htype
  · have hargs : args.type = .callReturn := by
      rw [hpool] at htype
      exact Option.some.inj ((getType_mkCode _ _ _).symm.trans htype)
    have hdst := h.knows i _ (Good.mem_head hc) (by rw [hargs]; simp)
    rw [hpool]
    show some (args.dst.getD cfg.bus) = _
    rw [hdst, Option.getD_none]
  · have hsignal : (sh'.pool m).type = some .signal := by
      rw [hpool]
      exact (h.knows i _ (Good.mem_head hc)).2.1
    rw [hsignal] at htype
    cases htype

/-- The request of a task that waits must not be lost. -/
theorem requested_of_bearer (h : Followed cfg s) (hm : m ∉ s.shared.msgList)
    (haux : (s.shared.pool m).aux = .ipcReturn x) (hdst : (s.shared.pool m).dst = some cfg.bus)
    (htask : cfg.isTask (s.shared.cells x).caller = true) :
    requested cfg s.shared m = true ∧ (s.shared.pool m).isCall = true ∧
      (pendingCall (s.shared.pool m) m).isSome = true := by
  obtain ⟨-, htype, hsrc, -⟩ := h.bearer m hm x haux
  rw [Config.getCurrentContext, if_pos htask] at hsrc
  have hcall : (s.shared.pool m).isCall = true := Message.isCall_of_type htype
  have hentry : (pendingCall (s.shared.pool m) m).isSome = true := by
    rw [pendingCall, htype]
    rfl
  refine ⟨?_, hcall, hentry⟩
  rw [requested, expectsReturn, hcall, hentry, hdst, htype, hsrc]
  simp

/-- **A request that is under way stays so** until its call is answered. -/
theorem underWay_step (h : Followed cfg s) (hc : s.threads i = c :: rest)
    (he : Effect cfg i c a s.shared sh' cs) (hok : answerable cfg c a s.shared = true)
    (hx : x < s.shared.ncells) (htask : cfg.isTask (s.shared.cells x).caller = true)
    (hopen : (sh'.cells x).answers = []) (hway : UnderWay cfg s x) :
    UnderWay cfg ⟨sh', Function.update s.threads i (cs ++ rest)⟩ x := by
  have hmove := move_of_effect he
  have hopenOld := (he.sameCall hx).answers_eq hopen
  obtain ⟨m, haux, hplace⟩ := hway
  have hfree : m ∉ s.shared.msgList := by
    rcases hplace with ⟨-, hq | hp | hb⟩ | ⟨major, e, he, rfl⟩
    · exact h.not_free_of_mq hq
    · exact h.not_free hp rfl
    · exact h.not_free hb rfl
    · exact h.not_free_of_entry he
  refine ⟨m, (Message.aux_eq (hmove.header_eq hfree)).trans haux, ?_⟩
  rcases hplace with ⟨hdst, hcirc⟩ | ⟨major, e, hmem, rfl⟩
  · obtain ⟨hrequested, hcall, hentry⟩ := h.requested_of_bearer hfree haux hdst htask
    by_cases hbusCall : c = .busCall m
    · -- `bus_call` finds a segment and memory, and links an entry
      subst hbusCall
      cases he with
      | callNoSegment hmajor hnode =>
        have hfinds := findsSegment_of_answerable hok hrequested
        rw [findsSegment_eq_false hmajor hnode] at hfinds
        cases hfinds
      | callNoEntry hmajor hnode hctx hnone =>
        rw [hnone] at hentry
        cases hentry
      | callNoMemory =>
        rw [answerable, hrequested] at hok
        cases hok
      | callLinked hmajor hnode hctx hsome =>
        rename_i major ms t e
        refine .inr ⟨major, e, ?_, pendingCall_msg hsome⟩
        show e ∈ Function.update s.shared.callList major (s.shared.callList major ++ [e]) major
        rw [Function.update_self]
        exact List.mem_append_right _ (List.mem_singleton_self _)
    · exact .inl ⟨(hmove.dst_eq hfree hbusCall).trans hdst,
        hcirc.step hc he hok hrequested hdst hcall hbusCall⟩
  · refine .inr ⟨major, e, hmove.entry_kept hmem ?_, rfl⟩
    rintro rfl
    exact h.follows i _ (Good.mem_head hc) x haux htask hopenOld

/-- The entry of a request with a cell is that of a synchronous call. -/
theorem callType_of_bearer (h : Followed cfg s) {major : Major} {e : PendingCall}
    (he : e ∈ s.shared.callList major) (haux : (s.shared.pool e.msg).aux = .ipcReturn x) :
    e.callType = .syncCall := by
  have htype := (h.bearer e.msg (h.not_free_of_entry he) x haux).2.1
  have hentry := (h.linked major e he).2.2
  rw [pendingCall, htype] at hentry
  exact (congrArg PendingCall.callType (Option.some.inj hentry)).symm

theorem follows_callApi (cfg : Config ι σ) (i : ι) (sh : Shared ι σ) (f : Api ι σ) :
    ∀ d ∈ (callApi cfg i sh f).2, d.Follows cfg (callApi cfg i sh f).1 i := by
  cases f with
  | mblueRemoteCall major minor input =>
    have hcell : (sh.getSequence.newCell i major
        (mblueMessageGetSequence sh.sequence)).cells sh.ncells =
          ⟨none, i, major, mblueMessageGetSequence sh.sequence, [], none, none, false⟩ :=
      Function.update_self _ _ _
    simp only [callApi, List.forall_mem_cons, List.not_mem_nil, false_imp_iff, implies_true,
      and_true]
    refine ⟨?_, trivial⟩
    rintro _ ⟨⟩
    exact ⟨Nat.lt_succ_self _, congrArg Cell.caller hcell, rfl, rfl,
      (congrArg Cell.major hcell).symm, (congrArg Cell.seq hcell).symm⟩
  | _ =>
    simp only [callApi, List.forall_mem_cons, List.not_mem_nil, false_imp_iff, implies_true,
      and_true, Cmd.Follows, drawnArgs, ipcReturnArgs, reduceCtorEq]

theorem follows_new (h : Followed cfg s) (hc : s.threads i = c :: rest)
    (he : Effect cfg i c a s.shared sh' cs) : ∀ d ∈ cs, d.Follows cfg sh' i := by
  have hfollows := h.follows i c (Good.mem_head hc)
  have hknows := h.knows i c (Good.mem_head hc)
  have hmove := move_of_effect he
  cases he with
  | removed hmq hdst htype hhandler =>
    rw [List.forall_mem_singleton]
    cases handles_of_getHandler hhandler <;> trivial
  | userCall hmay =>
    rw [List.forall_mem_append, List.forall_mem_singleton]
    exact ⟨follows_callApi cfg i s.shared _, trivial⟩
  | sendDone halloc hctx =>
    rename_i args m t
    obtain ⟨free, -, rfl⟩ := alloc_eq_some halloc
    rw [List.forall_mem_cons, List.forall_mem_singleton]
    refine ⟨?_, fun x hx ↦ ⟨(hfollows x hx).1, (hfollows x hx).2.1⟩⟩
    simp only [Cmd.Follows, Function.update_self]
    refine fun hcall ↦ .inr ⟨?_, fun x haux ↦ (hfollows x (out_of_initMessage haux).2).2.1⟩
    -- only a signal names its destination, so a request goes to the bus
    have hne : args.type ≠ .signal := fun heq ↦ by
      rw [Message.isCall_of_type (type_initMessage cfg args), heq] at hcall
      cases hcall
    show some (args.dst.getD cfg.bus) = _
    rw [hknows hne, Option.getD_none]
  | loopReplicated hctx halloc =>
    rename_i n ms subs t r sh₁
    obtain ⟨free, -, rfl⟩ := alloc_eq_some halloc
    have htype : (replicate (s.shared.pool n) ms).isCall = false :=
      Message.isCall_of_type hknows.2.1
    rw [List.forall_mem_cons, List.forall_mem_singleton]
    refine ⟨?_, trivial⟩
    simp only [Cmd.Follows, Shared.log, Function.update_self, htype, Bool.false_eq_true,
      false_imp_iff]
  | callNoEntry => exact List.forall_mem_singleton.2 fun _ ↦ .inl hknows.1
  | callLinked => exact List.forall_mem_singleton.2 fun _ ↦ .inl hknows.1
  | checkedTask => exact List.forall_mem_singleton.2 hfollows
  | returnOther hmajor hfind hother =>
    rename_i n major e
    rw [List.forall_mem_cons, List.forall_mem_singleton]
    refine ⟨fun x haux htask ↦ ?_, trivial⟩
    -- an entry whose request has a return cell is that of a waiting task
    have hmem := List.mem_of_find?_eq_some hfind
    rcases hother with hfalse | ⟨-, hnull⟩
    · rw [h.callType_of_bearer hmem haux] at hfalse
      cases hfalse
    · obtain ⟨-, -, hsrc, -⟩ := h.bearer e.msg (h.not_free_of_entry hmem) x haux
      rw [hnull, Config.getCurrentContext, if_pos htask] at hsrc
      cases hsrc
  | returnSync hmajor hfind htype hsrc hauxE =>
    rename_i n major e t y
    rw [List.forall_mem_cons, List.forall_mem_cons, List.forall_mem_singleton]
    refine ⟨trivial, fun x haux _ ↦ ?_, trivial⟩
    obtain rfl : y = x := Aux.ipcReturn.inj (hauxE.symm.trans haux)
    show (Function.update s.shared.cells y _ y).answers ≠ []
    rw [Function.update_self]
    simp
  | returnAsync hmajor hfind htype hnotifier =>
    rename_i n major e p
    simp only [List.forall_mem_cons, List.not_mem_nil, false_imp_iff, implies_true, and_true]
    refine ⟨trivial, trivial, fun x haux _ ↦ ?_, trivial⟩
    have hsync := h.callType_of_bearer (List.mem_of_find?_eq_some hfind) haux
    rw [htype] at hsync
    cases hsync
  | serviceFinished | requestRefused =>
    rw [List.forall_mem_cons, List.forall_mem_singleton]
    exact ⟨fun x hx ↦ (by cases hx), trivial⟩
  | _ =>
    simp only [List.forall_mem_cons, List.not_mem_nil, false_imp_iff, implies_true, and_true,
      Cmd.Follows]

theorem follows_kept (h : Followed cfg s) (hc : s.threads i = c :: rest)
    (he : Effect cfg i c a s.shared sh' cs) :
    ∀ j, ∀ d ∈ Function.update s.threads i rest j, d.Follows cfg sh' j := by
  have hmove := move_of_effect he
  intro j d hd
  have hmem := mem_of_mem_rest hc hd
  have hfollows := h.follows j d hmem
  cases d with
  | send args =>
    intro x hx
    obtain ⟨hlt, hcaller, htype, hsrc, hmajor, hseq⟩ := hfollows x hx
    have hsame := he.sameCall hlt
    exact ⟨hsame.lt, hsame.caller_eq.trans hcaller, htype, hsrc, hmajor.trans hsame.major_eq.symm,
      hseq.trans hsame.seq_eq.symm⟩
  | syncCheck _ o | tpend _ o =>
    intro x hx
    obtain ⟨hlt, hcaller⟩ := hfollows x hx
    exact ⟨(he.sameCall hlt).lt, (he.sameCall hlt).caller_eq.trans hcaller⟩
  | post t m =>
    obtain ⟨hheader, hdst⟩ := h.kept hc hmove hd rfl
    intro hcall
    rw [Message.isCall_eq hheader] at hcall
    refine (hfollows hcall).imp_right fun hsent ↦ ⟨hdst.trans hsent.1, fun x haux ↦ ?_⟩
    rw [Message.aux_eq hheader] at haux
    have hlt := (h.bearer m (h.not_free hmem rfl) x haux).1
    exact (he.sameCall hlt).caller_eq.trans (hsent.2 x haux)
  | complete major e =>
    have hfree := h.not_free_of_entry (h.knows j _ hmem).2
    intro x haux htask hnil
    rw [Message.aux_eq (hmove.header_eq hfree)] at haux
    have hsame := he.sameCall (h.bearer e.msg hfree x haux).1
    exact hfollows x haux (hsame.caller_eq ▸ htask) (hsame.answers_eq hnil)
  | _ => trivial

/-- A message is posted by the first command of a thread. -/
theorem post_first_step (h : Followed cfg s) (hc : s.threads i = c :: rest)
    (he : Effect cfg i c a s.shared sh' cs) :
    ∀ j, ∀ d ∈ (Function.update s.threads i (cs ++ rest) j).tail, ∀ t m, d ≠ .post t m := by
  have hrest : ∀ d ∈ rest, ∀ t m, d ≠ .post t m := by
    have hold := h.post_first i
    rw [hc, List.tail_cons] at hold
    exact hold
  have hnew : ∀ d ∈ cs.tail, ∀ t m, d ≠ .post t m := by
    cases he with
    | userCall hmay =>
      rename_i k f
      cases f <;> simp [callApi]
    | _ => simp
  intro j d hd
  by_cases hj : j = i
  · rw [hj, Function.update_self] at hd
    cases cs with
    | nil => exact hrest d (List.mem_of_mem_tail hd)
    | cons d' ds =>
      rw [List.cons_append, List.tail_cons, List.mem_append] at hd
      exact hd.elim (hnew d) (hrest d)
  · rw [Function.update_of_ne hj] at hd
    exact h.post_first j d hd

omit [Fintype ι] in
theorem waits_callApi {sh : Shared ι σ} {f : Api ι σ} (hd : d ∈ (callApi cfg i sh f).2) :
    d.waits? = none := by
  cases f <;> simp only [callApi, List.mem_cons, List.not_mem_nil, or_false] at hd <;>
    rcases hd with rfl | rfl <;> rfl

/-- A command that waits for a call knows it. -/
theorem follows_waits (hfollows : d.Follows cfg sh i) (hx : d.waits? = some x) :
    x < sh.ncells ∧ (sh.cells x).caller = i := by
  cases d <;> first | exact hfollows x hx | cases hx

/-- **As long as a call has no answer its request is under way.** -/
theorem waiting_step (h : Followed cfg s) (hc : s.threads i = c :: rest)
    (he : Effect cfg i c a s.shared sh' cs) (hok : answerable cfg c a s.shared = true) :
    ∀ j, ∀ d ∈ Function.update s.threads i (cs ++ rest) j, ∀ x, d.waits? = some x →
      cfg.isTask j = true → (sh'.cells x).answers = [] →
        UnderWay cfg ⟨sh', Function.update s.threads i (cs ++ rest)⟩ x := by
  -- a command that waited before this step
  have hold : ∀ j, ∀ d ∈ s.threads j, ∀ x, d.waits? = some x → cfg.isTask j = true →
      (sh'.cells x).answers = [] →
        UnderWay cfg ⟨sh', Function.update s.threads i (cs ++ rest)⟩ x := by
    intro j d hd x hx htask hopen
    obtain ⟨hlt, hcaller⟩ := follows_waits (h.follows j d hd) hx
    have hopenOld := (he.sameCall hlt).answers_eq hopen
    exact h.underWay_step hc he hok hlt (hcaller ▸ htask) hopen
      (h.waiting j d hd x hx htask hopenOld)
  intro j d hd x hx htask hopen
  rcases mem_expand_iff.1 hd with ⟨rfl, hnew⟩ | hkept
  swap
  · exact hold j d (mem_of_mem_rest hc hkept) x hx htask hopen
  cases he with
  | sendDone halloc hctx =>
    rename_i args m t
    obtain ⟨free, -, rfl⟩ := alloc_eq_some halloc
    rw [List.mem_cons, List.mem_singleton] at hnew
    rcases hnew with rfl | rfl
    · cases hx
    · -- the request has just been made
      have hout : args.out = some x := hx
      obtain ⟨-, -, htype, -⟩ := h.follows j _ (Good.mem_head hc) x hout
      have hdst := h.knows j _ (Good.mem_head hc) (by rw [htype]; simp)
      refine ⟨m, ?_, .inl ⟨?_, .posted (mem_expand_iff.2 (.inl ⟨rfl, List.mem_cons_self⟩))⟩⟩
      · show (Function.update s.shared.pool m _ m).aux = _
        rw [Function.update_self]
        show args.aux = _
        rw [SendArgs.aux, htype, hout]
        rfl
      · show (Function.update s.shared.pool m _ m).dst = _
        rw [Function.update_self]
        show some (args.dst.getD cfg.bus) = _
        rw [hdst, Option.getD_none]
  | checkedTask htype hsrc =>
    rw [List.mem_singleton] at hnew
    subst hnew
    exact hold j _ (Good.mem_head hc) x hx htask hopen
  | removed hmq hdst htype hhandler =>
    rw [List.mem_singleton] at hnew
    subst hnew
    cases handles_of_getHandler hhandler <;> cases hx
  | userCall hmay =>
    rw [List.mem_append, List.mem_singleton] at hnew
    rcases hnew with hnew | rfl
    · rw [waits_callApi hnew] at hx
      cases hx
    · cases hx
  | _ =>
    have hnone : d.waits? = none := by
      clear hd hx
      revert d
      simp [Cmd.waits?]
    rw [hnone] at hx
    cases hx

/-- **The step lemma.** -/
theorem step (h : Followed cfg s) {l : ι × Choice ι σ} {t : State ι σ}
    (hok : AtHead (Answerable cfg) s l) (hstep : (fused cfg).step s l = some t) :
    Followed cfg t := by
  have hreplied := h.toReplied.step hok hstep
  obtain ⟨c, rest, sh', cs, hc, he, rfl⟩ := effect_of_step hstep
  have hmove := move_of_effect he
  exact ⟨hreplied, h.bearer_step hc he, h.return_dst_step hc hmove,
    forall_expand (h.follows_new hc he) (h.follows_kept hc he), h.post_first_step hc he,
    h.waiting_step hc he (hok.cmd hc).2⟩

theorem initial (cfg : Config ι σ) : Followed cfg (Mblue.initial cfg) := by
  have hthreads : ∀ i, ∀ c ∈ (Mblue.initial cfg).threads i, c = .userCode .app ∨ c = .templateProc :=
    fun i c hc ↦ by
      unfold Mblue.initial at hc
      dsimp only at hc
      split at hc
      · simpa using hc
      · exact .inl (List.mem_singleton.1 hc)
  refine ⟨Replied.initial cfg, fun m hm ↦ absurd (List.mem_finRange m) hm,
    fun m hm ↦ absurd (List.mem_finRange m) hm, fun i c hc ↦ ?_, fun i c hc t m heq ↦ ?_,
    fun i c hc x hx ↦ ?_⟩
  · rcases hthreads i c hc with rfl | rfl <;> trivial
  · rcases hthreads i c (List.mem_of_mem_tail hc) with rfl | rfl <;> cases heq
  · rcases hthreads i c hc with rfl | rfl <;> cases hx

theorem of_run {s : State ι σ}
    (h : Run (fused cfg).step (AtHead (Answerable cfg)) (Mblue.initial cfg) s) : Followed cfg s :=
  h.invariant (initial cfg) fun ha hok hstep ↦ ha.step hok hstep

/-! ### What remains of a call -/

/-- The bus has a request that is on its way to it. -/
theorem busHas (h : Followed cfg s) (hdst : (s.shared.pool m).dst = some cfg.bus)
    (hcall : (s.shared.pool m).isCall = true) (haux : (s.shared.pool m).aux = .ipcReturn x)
    (hno : ∀ t, .post t m ∉ s.threads (s.shared.cells x).caller) (hcirc : Circulates s m) :
    BusHas cfg s m := by
  cases hcirc with
  | @queued t hq =>
    obtain ⟨ms, hms, hctx⟩ := h.routed t m hq
    obtain rfl := Option.some.inj (hms.symm.trans hdst)
    rw [cfg.context_bus] at hctx
    exact .queued (Option.some.inj hctx ▸ hq)
  | @posted j t hpost =>
    rcases h.follows j _ hpost hcall with rfl | ⟨-, hcaller⟩
    · exact .passed hpost
    · exact absurd ((hcaller x haux) ▸ hpost) (hno t)
  | handled hhandled => exact .handled ((h.knows _ _ hhandled).1 ▸ hhandled)

/-- **What the tally counts is a return to come.** -/
theorem replyToCome (h : Followed cfg s) {k : CallNumber} (hk : 0 < (replies cfg).total s k) :
    ReplyToCome cfg s k := by
  have hmessage : ∀ {m}, owes cfg s.shared m = some k → HasNumber s.shared m k ∧
      ((s.shared.pool m).isCall = true ∧ (s.shared.pool m).dst ≠ some cfg.bus ∨
        (s.shared.pool m).type = some .callReturn) := by
    intro m howes
    refine ⟨owes_eq_some howes, ?_⟩
    unfold owes at howes
    split at howes
    · next hcond =>
      simp only [Bool.or_eq_true, Bool.and_eq_true, beq_iff_eq, bne_iff_ne, expectsReturn] at hcond
      exact hcond.imp_left fun hrequest ↦ ⟨hrequest.1.1, hrequest.2⟩
    · cases howes
  rw [Tally.total] at hk
  by_cases hqueued : 0 < (replies cfg).queued s.shared k
  · -- a message in a queue
    obtain ⟨t, -, ht⟩ := Finset.exists_ne_zero_of_sum_ne_zero (Nat.pos_iff_ne_zero.1 hqueued)
    obtain ⟨m, hm, howes⟩ := List.mem_filterMap.1 (List.count_pos_iff.1 (Nat.pos_of_ne_zero ht))
    obtain ⟨ms, hdst, hctx⟩ := h.routed t m hm
    obtain ⟨hnumber, ⟨hcall, hne⟩ | htype⟩ := hmessage howes
    · exact .queued hcall hnumber (fun heq ↦ hne (heq ▸ hdst)) hctx hm
    · have hbus := h.return_dst m (h.not_free_of_mq hm) htype
      obtain rfl := Option.some.inj (hdst.symm.trans hbus)
      rw [cfg.context_bus] at hctx
      exact .returned htype hnumber (Option.some.inj hctx ▸ hm)
  · -- a command
    obtain ⟨j, d, hd, hdk⟩ := exists_of_mentions_pos (f := (replies cfg).cmd s.shared)
      (show 0 < mentions _ s.threads k by omega)
    have hknows := h.knows j d hd
    cases d with
    | send args =>
      by_cases htype : args.type = .callReturn
      · have hsome : (replies cfg).cmd s.shared (.send args) = some ⟨args.major, args.seq⟩ :=
          if_pos htype
        exact .sent htype (Option.some.inj (hsome.symm.trans hdk)) hd
      · have hnone : (replies cfg).cmd s.shared (.send args) = none := if_neg htype
        rw [hnone] at hdk
        cases hdk
    | post t m =>
      obtain ⟨hnumber, ⟨hcall, hne⟩ | htype⟩ := hmessage hdk
      · rcases h.follows j _ hd hcall with rfl | ⟨hdst, -⟩
        · exact .passed hcall hnumber hd
        · exact absurd hdst hne
      · exact .posted htype hnumber hd
    | ipcHandler ms m => exact .handled (hmessage hdk).1 hd
    | busCallReturn m => exact .matched (hmessage hdk).1 (hknows.1 ▸ hd)
    | complete major e => exact .completed (Option.some.inj hdk) (hknows.1 ▸ hd)
    | userCode u =>
      cases u with
      | service ms m f args => exact .called (hmessage hdk).1 hd
      | _ => cases hdk
    | _ => cases hdk

theorem notStranded (h : Followed cfg s) : NotStranded cfg s := by
  intro i t x rest htask hc hopen
  have hmem : .tpend t (some x) ∈ s.threads i := hc ▸ List.mem_cons_self
  obtain ⟨hlt, hcaller⟩ := h.follows i _ hmem x rfl
  obtain ⟨m, haux, hplace⟩ := h.waiting i _ hmem x rfl htask hopen
  -- the caller has posted the request before it waits
  have hno : ∀ t', .post t' m ∉ s.threads (s.shared.cells x).caller := by
    intro t' hpost
    rw [hcaller, hc] at hpost
    rcases List.mem_cons.1 hpost with heq | hrest
    · cases heq
    · exact h.post_first i _ (by rw [hc]; exact hrest) t' m rfl
  rcases hplace with ⟨hdst, hcirc⟩ | ⟨major, e, he, rfl⟩
  · have hfree : m ∉ s.shared.msgList := by
      rcases hcirc with hq | hp | hb
      · exact h.not_free_of_mq hq
      · exact h.not_free hp rfl
      · exact h.not_free hb rfl
    obtain ⟨-, htype, -, hnumber⟩ := h.bearer m hfree x haux
    exact ⟨m, haux, hnumber, .inl (h.busHas hdst (Message.isCall_of_type htype) haux hno hcirc)⟩
  · obtain ⟨-, htype, -, hnumber⟩ := h.bearer e.msg (h.not_free_of_entry he) x haux
    obtain rfl : major = (s.shared.cells x).major :=
      Option.some.inj ((h.linked major e he).1.symm.trans hnumber.1)
    refine ⟨e.msg, haux, hnumber, ?_⟩
    by_cases hself : cfg.node (s.shared.cells x).major = some cfg.bus
    · obtain ⟨hdst, hcirc⟩ := h.circulating _ hself e he
      exact .inl (h.busHas hdst (Message.isCall_of_type htype) haux hno hcirc)
    · have hcovered := h.covered ⟨(s.shared.cells x).major, (s.shared.pool e.msg).seq⟩ hself
      have hpos := (entriesAt_pos he).trans_le hcovered
      rw [show (s.shared.pool e.msg).seq = (s.shared.cells x).seq from hnumber.2] at hpos
      exact .inr ⟨⟨e, he, rfl⟩, h.replyToCome hpos⟩

end Followed

theorem BusHas.of_fuse (h : BusHas cfg (fuse cfg s) m) : BusHas cfg s m := by
  cases h with
  | queued h => exact .queued (fuse_mq cfg s ▸ h)
  | handled h => exact .handled (mem_of_mem_fuse h)
  | passed h => exact .passed (mem_of_mem_fuse h)

theorem ReplyToCome.of_fuse {k : CallNumber} (h : ReplyToCome cfg (fuse cfg s) k) :
    ReplyToCome cfg s k := by
  have hpool := fuse_pool cfg s
  have hmq := fuse_mq cfg s
  cases h with
  | passed hcall hk h =>
    rw [HasNumber, hpool] at hk
    exact .passed (hpool ▸ hcall) hk (mem_of_mem_fuse h)
  | queued hcall hk hms hctx h =>
    rw [HasNumber, hpool] at hk
    exact .queued (hpool ▸ hcall) hk hms hctx (hmq ▸ h)
  | handled hk h =>
    rw [HasNumber, hpool] at hk
    exact .handled hk (mem_of_mem_fuse h)
  | called hk h =>
    rw [HasNumber, hpool] at hk
    exact .called hk (mem_of_mem_fuse h)
  | sent htype hk h => exact .sent htype hk (mem_of_mem_fuse h)
  | posted htype hk h =>
    rw [HasNumber, hpool] at hk
    exact .posted (hpool ▸ htype) hk (mem_of_mem_fuse h)
  | returned htype hk h =>
    rw [HasNumber, hpool] at hk
    exact .returned (hpool ▸ htype) hk (hmq ▸ h)
  | matched hk h =>
    rw [HasNumber, hpool] at hk
    exact .matched hk (mem_of_mem_fuse h)
  | completed hk h => exact .completed (hpool ▸ hk) (mem_of_mem_fuse h)

theorem NotStranded.of_fuse (h : NotStranded cfg (fuse cfg s)) : NotStranded cfg s := by
  intro i t x rest htask hc hopen
  have hcells := fuse_cells cfg s
  have hpool := fuse_pool cfg s
  obtain ⟨m, haux, hnumber, hplace⟩ := h i t x rest htask
    (threads_fuse_of_ne hc fun _ _ h ↦ by cases h) (hcells ▸ hopen)
  rw [HasNumber, hpool, hcells] at hnumber
  rw [hcells] at hplace
  refine ⟨m, hpool ▸ haux, hnumber, hplace.imp BusHas.of_fuse fun hentry ↦ ?_⟩
  obtain ⟨⟨e, he, hem⟩, hreply⟩ := hentry
  exact ⟨⟨e, mem_callList_of_fuse he, hem⟩, hreply.of_fuse⟩

/-- **No caller is stranded** in any run in which no request or return is lost. -/
theorem notStranded_of_run
    (h : Run (system cfg).step (AtHead (Answerable cfg)) (initial cfg) s) : NotStranded cfg s := by
  have hrun := (Split.of_noWrap h Answerable.unseen And.left).2
  exact (Followed.of_run hrun).notStranded.of_fuse

end Invariant

/-! ### A call that is answered, and one without segment -/

/-- The log service has a handler for requests. -/
def strandConfig : Config (Fin 3) Bool := .small 4 [] [⟨0, 1⟩]

/-- Task `2` calls a number and waits for the return; the bus has taken the request from its
queue. -/
def blockedRun (major : Major) : List (Fin 3 × Choice (Fin 3) Bool) :=
  [(0, .finish 0), (1, .finish 0), (2, .malloc 16 [5, 10, 1, 97, 16, 0]),
    (2, .api (.mblueRemoteCall major 0 16)), (2, .go), (2, .go), (2, .go), (2, .go), (0, .go),
    (0, .go)]

/-- A call of the log service: its handler is at work, and the caller waits. -/
theorem notStranded_called : ∃ t, exec (system strandConfig).step (AtHead (Answerable strandConfig))
      (initial strandConfig) (blockedRun mblueLogService ++
        [(0, .go), (0, .go), (0, .go), (1, .go), (1, .go), (1, .go)]) = some t ∧
    ((t.threads 2).head?, (t.shared.cells 0).answers) = (some (.tpend 2 (some 0)), []) ∧
    NotStranded strandConfig t :=
  exists_of_exec_eq rfl fun _ h ↦ notStranded_of_run h

/-- A call of a number without segment: `bus_call` returns, and the caller waits for nothing. -/
theorem not_notStranded_noSegment : ¬∀ t, Run (system strandConfig).step (fun _ _ ↦ True)
    (initial strandConfig) t → NotStranded strandConfig t := by
  intro hall
  obtain ⟨t, hexec, hvalues⟩ : ∃ t, exec (system strandConfig).step (fun _ _ ↦ True)
      (initial strandConfig) (blockedRun ⟨4, by decide⟩ ++ [(0, .go), (0, .finish 0)]) = some t ∧
    (t.threads 0, t.threads 2, t.shared.mq 0, t.shared.callList, (t.shared.cells 0).answers) =
      ([.templateProc], [.tpend 2 (some 0), .remoteReturn 0, .userCode .app, .templateProc], [],
        fun _ ↦ [], []) := ⟨_, rfl, rfl⟩
  simp only [Prod.mk.injEq] at hvalues
  obtain ⟨hbus, hcaller, hqueue, hlists, hopen⟩ := hvalues
  obtain ⟨m, -, -, hplace⟩ := hall t (run_exec hexec) 2 2 0 _ rfl hcaller hopen
  rcases hplace with (hq | hb | hp) | ⟨⟨e, he, -⟩, -⟩
  · rw [show strandConfig.busTask = 0 from rfl, hqueue] at hq
    cases hq
  · rw [show strandConfig.busTask = 0 from rfl, hbus] at hb
    simp at hb
  · rw [show strandConfig.busTask = 0 from rfl, hbus] at hp
    simp at hp
  · rw [hlists] at he
    cases he

end Mblue
