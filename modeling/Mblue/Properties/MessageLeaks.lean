import Mblue.System.Replies

/-!
# No message leaks from the pool

When nothing is going on any more (`Settled`), what is expected is that all messages are in the free
list again (`AllFree`). The invariant of `System/Invariant.lean` is not enough for this, it bounds
the users of a message by its counter. Here the counter is **exact** (`PoolManager.Exact`): it is
not larger than the users are many. So a message without users is free, and by the tally of
`System/Replies.lean` no entry is left once no return is to come.

Each step must keep the account (`Balanced`). A step that does not loses a message of the pool: a
full queue drops what is posted, `bus_call` returns without releasing the request, a header that
cannot be decoded ends `default_ipc_handler` at once, and a request without an entry is passed on
with a reference nobody will drop (`not_noLeak_async`).
-/

set_option linter.unusedSectionVars false

namespace Mblue

variable {ι σ : Type}

/-! ### What is expected -/

/-- The command is part of the work on a message, or sends a return. -/
def Cmd.atWork : Cmd ι σ → Bool
  | .send a => a.type == .callReturn
  | .complete _ _ => true
  | c => c.msg?.isSome

theorem Cmd.atWork_of_msg {c : Cmd ι σ} {m : MsgId} (h : c.msg? = some m) : c.atWork = true := by
  cases c with
  | send | complete => cases h
  | _ => exact congrArg Option.isSome h

/-- All queues are empty, no handler is running and nobody owes a reply. -/
def Settled (s : State ι σ) : Prop :=
  (∀ t, s.shared.mq t = []) ∧ ∀ i, ∀ c ∈ s.threads i, c.atWork = false

instance [Fintype ι] (s : State ι σ) : Decidable (Settled s) :=
  inferInstanceAs (Decidable (_ ∧ _))

/-- All messages of the pool are in the free list. -/
def AllFree (sh : Shared ι σ) : Prop :=
  sh.msgList.Perm (List.finRange mblueMaxMessageNum) ∧ sh.count = mblueMaxMessageNum

/-- **No message leaks.** -/
def NoLeak (s : State ι σ) : Prop := Settled s → AllFree s.shared

/-! ### The condition -/

section Condition

variable [DecidableEq ι] [DecidableEq σ]

/-- The command drops no message without releasing it, and takes no reference that nobody holds:
there is room for what is posted, a request finds a segment with a task and gets an entry, its header
can be decoded, and what is replicated has no counter yet. -/
def keepsCount (cfg : Config ι σ) (c : Cmd ι σ) (a : Choice ι σ) (sh : Shared ι σ) : Bool :=
  match c, a with
  | .post t _, _ => decide ((sh.mq t).length < cfg.capacity t)
  | .busCall _, .fail => false
  | .busCall m, _ => findsSegment cfg sh m && (pendingCall (sh.pool m) m).isSome
  | .busSignalLoop m (ms :: _), _ => (cfg.context ms).isNone || (sh.pool m).ref == 0
  | .ipcHandler ms m, _ =>
    match payloadBlock (sh.pool m) sh with
    | some payload =>
      match readRequest payload (cfg.findIpcHandlerFromService ms (sh.pool m).minor) with
      | .ok .headerFailed => false
      | _ => true
    | none => true
  | _, _ => true

/-- Every message is accounted for: no request or return is lost, and no reference. -/
def Balanced (cfg : Config ι σ) (i : ι) (c : Cmd ι σ) (a : Choice ι σ) (sh : Shared ι σ) : Prop :=
  Answerable cfg i c a sh ∧ keepsCount cfg c a sh = true

instance (cfg : Config ι σ) (i : ι) (c : Cmd ι σ) (a : Choice ι σ) (sh : Shared ι σ) :
    Decidable (Balanced cfg i c a sh) :=
  inferInstanceAs (Decidable (_ ∧ _))

end Condition

/-! ### The counters are exact -/

section Exact

variable [Fintype ι] [DecidableEq ι] [DecidableEq σ]

/-- Each entry has a return to come, and each counter is that of its users. -/
structure Accounted (cfg : Config ι σ) (s : State ι σ) : Prop extends Replied cfg s where
  exact : s.shared.manager.Exact (active s) (entries s.shared)

namespace Accounted

variable {cfg : Config ι σ} {s : State ι σ} {i : ι} {c : Cmd ι σ} {a : Choice ι σ}
  {rest cs : List (Cmd ι σ)} {sh' : Shared ι σ} {m : MsgId}

/-- The messages stay where they are. -/
theorem exact_pass (h : Accounted cfg s) (hc : s.threads i = c :: rest)
    (hsame : SameMessages s.shared sh') (hcarried : carried cs = carried [c]) :
    sh'.manager.Exact (active ⟨sh', Function.update s.threads i (cs ++ rest)⟩) (entries sh') := by
  rw [hsame.manager_eq, active_pass hc _ hcarried hsame.mq_eq, entries_congr hsame.callList_eq]
  exact h.exact

/-- A message is allocated, with a counter of zero or one. -/
theorem exact_take (h : Accounted cfg s) (hc : s.threads i = c :: rest) {sh₁ : Shared ι σ}
    {content : Message ι σ} (halloc : s.shared.alloc content = some (m, sh₁))
    (hsame : SameMessages sh₁ sh') (hcarried : carried cs = m :: carried [c])
    (href : content.ref.val ≤ 1) :
    sh'.manager.Exact (active ⟨sh', Function.update s.threads i (cs ++ rest)⟩) (entries sh') := by
  obtain ⟨free, hfree, hmanager⟩ := manager_alloc halloc
  obtain ⟨_, -, hsh⟩ := alloc_eq_some halloc
  have hentries : entries sh' = entries s.shared :=
    entries_congr (by rw [hsame.callList_eq, hsh])
  rw [hsame.manager_eq, hmanager, active_take hc hcarried (by rw [hsame.mq_eq, hsh]), hentries]
  exact h.exact.take h.sound hfree href

/-- A message is released by the command that carries it. -/
theorem exact_drop (h : Accounted cfg s) (hc : s.threads i = c :: rest) (hmsg : carried [c] = [m])
    (hcarried : carried cs = []) :
    (s.shared.release m).manager.Exact
      (active ⟨s.shared.release m, Function.update s.threads i (cs ++ rest)⟩)
      (entries (s.shared.release m)) := by
  have hactive := active_drop hc hmsg hcarried (mq_release s.shared m)
  have hexact := h.exact
  have hsound := h.sound
  rw [← hactive] at hexact hsound
  rw [manager_release, entries_release]
  exact hexact.release hsound

theorem exact_step (h : Accounted cfg s) (hc : s.threads i = c :: rest)
    (he : Effect cfg i c a s.shared sh' cs) (hok : Balanced cfg i c a s.shared) :
    sh'.manager.Exact (active ⟨sh', Function.update s.threads i (cs ++ rest)⟩) (entries sh') := by
  obtain ⟨⟨hwrap, -⟩, hkeeps⟩ := hok
  have hknows := h.knows i c (Good.mem_head hc)
  cases he with
  | removed hmq hdst htype hhandler =>
    rw [active_removed hc hmq (carried_getHandler hhandler)]
    exact h.exact
  | userCall hmay =>
    refine h.exact_pass hc (sameMessages_callApi cfg i s.shared _) ?_
    rw [carried_append, carried_callApi, List.nil_append]
  | sendDone halloc hctx =>
    rename_i args n t
    refine h.exact_take hc halloc (.refl _) rfl ?_
    show (if args.type.isCall then (1 : Uint16) else 0).val ≤ 1
    split <;> decide
  | postFull hfull => exact absurd (of_decide_eq_true hkeeps) (Nat.not_lt_of_le hfull)
  | postDone hroom =>
    rw [active_posted hc]
    exact h.exact
  | tpendTaken hsem =>
    rename_i t cell d tail
    refine h.exact_pass hc ?_ rfl
    cases cell <;> exact ⟨rfl, rfl, rfl, rfl, rfl⟩
  | subscribeReleased | released => exact h.exact_drop hc rfl rfl
  | loopReplicated hctx halloc =>
    rename_i n ms subs t r sh₁
    refine h.exact_take hc halloc ⟨rfl, rfl, rfl, rfl, rfl⟩ rfl ?_
    -- the replica takes over the counter of the broadcast, and one is added
    have hzero : (s.shared.pool n).ref = 0 := by
      rw [keepsCount, hctx] at hkeeps
      exact beq_iff_eq.1 hkeeps
    show (getMblueMessage (s.shared.pool n).ref).val ≤ 1
    rw [hzero]
    decide
  | callNoSegment hmajor hnode =>
    have hnone := findsSegment_eq_false hmajor hnode
    unfold keepsCount at hkeeps
    split at hkeeps <;> simp_all
  | callNoEntry hmajor hnode hctx hentry =>
    unfold keepsCount at hkeeps
    split at hkeeps <;> simp_all
  | callNoMemory => cases hkeeps
  | callLinked hmajor hnode hctx hentry =>
    rename_i n major ms t e
    have hfree : n ∉ s.shared.msgList := h.not_free (Good.mem_head hc) rfl
    -- one reference more, and one entry
    have hpos : 0 < s.shared.manager.ref n :=
      Nat.pos_of_ne_zero fun h0 ↦ h.counted n hfree hknows.2.1 (Fin.ext h0)
    have hactive := active_pass hc
      (((s.shared.link major e).log (.linked major e (s.shared.pool n).seq)).forward n ms)
      (show carried [.post t n] = carried [.busCall n] from rfl) rfl
    rw [manager_linked (hwrap n rfl), hactive, entries_linked (pendingCall_msg hentry)]
    exact h.exact.share hpos
  | completed =>
    rename_i major e
    have hactive := active_pass hc
      (((s.shared.release e.msg).unlink major e).log (.unlinked major e))
      (show carried [] = carried [.complete major e] from rfl) (mq_release s.shared e.msg)
    have hentries := entries_completed hknows.2 (.unlinked major e)
    have hexact := h.exact
    have hsound := h.sound
    rw [← hentries] at hexact hsound
    rw [manager_completed, hactive]
    exact hexact.releaseEntry hsound
  | requestUndecodable hpayload hread =>
    rw [keepsCount, hpayload] at hkeeps
    simp only [hread] at hkeeps
    cases hkeeps
  | _ => exact h.exact_pass hc ⟨rfl, rfl, rfl, rfl, rfl⟩ rfl

/-- **The step lemma.** -/
theorem step (h : Accounted cfg s) {l : ι × Choice ι σ} {t : State ι σ}
    (hok : AtHead (Balanced cfg) s l) (hstep : (fused cfg).step s l = some t) :
    Accounted cfg t := by
  have hreplied := h.toReplied.step (hok.mono fun hbalanced ↦ hbalanced.1) hstep
  obtain ⟨c, rest, sh', cs, hc, he, rfl⟩ := effect_of_step hstep
  exact ⟨hreplied, h.exact_step hc he (hok.cmd hc)⟩

theorem initial (cfg : Config ι σ) : Accounted cfg (initial cfg) :=
  ⟨Replied.initial cfg, fun m hm ↦ absurd (List.mem_finRange m) hm⟩

theorem of_run {s : State ι σ}
    (h : Run (fused cfg).step (AtHead (Balanced cfg)) (Mblue.initial cfg) s) : Accounted cfg s :=
  h.invariant (initial cfg) fun ha hok hstep ↦ ha.step hok hstep

end Accounted

/-! ### When nothing is going on -/

/-- What stands for a return to come is at work. -/
theorem Cmd.atWork_of_replies {cfg : Config ι σ} {sh : Shared ι σ} {c : Cmd ι σ} {k : CallNumber}
    (h : (replies cfg).cmd sh c = some k) : c.atWork = true := by
  cases c with
  | send a =>
    by_contra hother
    have hnone : (replies cfg).cmd sh (.send a) = none := if_neg fun htype ↦
      hother (beq_iff_eq.2 htype)
    rw [hnone] at h
    cases h
  | userCode k => cases k <;> first | rfl | cases h
  | _ => first | rfl | cases h

namespace Settled

variable {cfg : Config ι σ} {s : State ι σ}

theorem active_eq_zero (h : Settled s) (m : MsgId) : active s m = 0 := by
  by_contra hpos
  have hmentions : mentions Cmd.msg? s.threads m = 0 := mentions_eq_zero fun j d hd hm ↦ by
    have hidle := h.2 j d hd
    rw [Cmd.atWork_of_msg hm] at hidle
    cases hidle
  have hqueued : queued s.shared m = 0 :=
    Finset.sum_eq_zero fun t _ ↦ by rw [h.1 t, List.count_nil]
  exact hpos (by rw [active, hmentions, hqueued])

/-- Nothing stands for a return to come. -/
theorem replies_eq_zero (h : Settled s) (k : CallNumber) : (replies cfg).total s k = 0 := by
  refine Tally.total_eq_zero (fun j d hd hk ↦ ?_) fun t m hm ↦ ?_
  · have hidle := h.2 j d hd
    rw [Cmd.atWork_of_replies hk] at hidle
    cases hidle
  · rw [h.1 t] at hm
    exact absurd hm List.not_mem_nil

/-- **No entry is left.** -/
theorem callList_eq_nil (h : Settled s) (hreplied : Replied cfg s) (major : Major) :
    s.shared.callList major = [] := by
  rw [List.eq_nil_iff_forall_not_mem]
  intro e he
  by_cases hself : cfg.node major = some cfg.bus
  · -- the request of a call of the bus itself would be going round
    cases (hreplied.circulating major hself e he).2 with
    | queued hm =>
      rw [h.1] at hm
      exact absurd hm List.not_mem_nil
    | posted hpost => exact absurd (h.2 _ _ hpost) (by simp [Cmd.atWork, Cmd.msg?])
    | handled hcall => exact absurd (h.2 _ _ hcall) (by simp [Cmd.atWork, Cmd.msg?])
  · have hcovered := hreplied.covered ⟨major, (s.shared.pool e.msg).seq⟩ hself
    have hpos := entriesAt_pos he
    rw [h.replies_eq_zero] at hcovered
    omega

theorem entries_eq_zero (h : Settled s) (hreplied : Replied cfg s) (m : MsgId) :
    entries s.shared m = 0 :=
  Finset.sum_eq_zero fun major _ ↦ by
    rw [h.callList_eq_nil hreplied major, List.map_nil, List.count_nil]

/-- The fused state is settled when the state is. -/
theorem fuse (h : Settled s) : Settled (Mblue.fuse cfg s) :=
  ⟨to_fuse (P := fun sh ↦ ∀ t, sh.mq t = []) (fun _ _ _ hmq ↦ hmq) h.1,
    fun i c hc ↦ h.2 i c (mem_of_mem_fuse hc)⟩

end Settled

/-- Where the counters are exact and nothing is going on, all messages are free. -/
theorem Accounted.allFree {cfg : Config ι σ} {s : State ι σ} (h : Accounted cfg s)
    (hsettled : Settled s) : AllFree s.shared := by
  obtain ⟨hall, hcount⟩ := h.exact.free_complete h.sound hsettled.active_eq_zero
    (hsettled.entries_eq_zero h.toReplied)
  refine ⟨?_, hcount.trans (Fintype.card_fin _)⟩
  exact (List.perm_ext_iff_of_nodup h.sound.nodup (List.nodup_finRange _)).2
    fun m ↦ iff_of_true (hall m) (List.mem_finRange m)

theorem Balanced.unseen {cfg : Config ι σ} : Unseen (Balanced cfg) :=
  fun _ _ _ _ major e huses hok ↦ ⟨Answerable.unseen major e huses hok.1, hok.2⟩

/-- **No message leaks.** In every run whose steps keep the account, all messages are free whenever
nothing is going on. -/
theorem noLeak_of_run {cfg : Config ι σ} {s : State ι σ}
    (h : Run (system cfg).step (AtHead (Balanced cfg)) (initial cfg) s) : NoLeak s := by
  intro hsettled
  have hrun := (Split.of_noWrap h Balanced.unseen fun hok ↦ hok.1.1).2
  exact of_fuse (fun _ _ _ hfree ↦ hfree) ((Accounted.of_run hrun).allFree hsettled.fuse)

end Exact

/-! ### A call that is answered, and one without an entry -/

/-- The log service has a handler for requests. -/
def leakConfig : Config (Fin 3) Bool := .small 4 [] [⟨0, 1⟩]

/-- Task `2` makes a call of the log service, which answers it; the bus is about to go on after it
has found the entry of the return, or none. -/
def answeredRun (f : Api (Fin 3) Bool) : List (Fin 3 × Choice (Fin 3) Bool) :=
  [(0, .finish 0), (1, .finish 0), (2, .malloc 16 [5, 10, 1, 97, 16, 0]), (2, .api f), (2, .go),
    (2, .go), (2, .go), (2, .go), (0, .go), (0, .go), (0, .go), (0, .go), (0, .go), (1, .go),
    (1, .go), (1, .go), (1, .finish 1), (1, .go), (1, .go), (1, .go), (1, .go), (1, .go), (1, .go),
    (0, .go), (0, .go), (0, .go)]

/-- A synchronous call: all messages are free when the caller has returned. -/
theorem noLeak_answered : ∃ t, exec (system leakConfig).step (AtHead (Balanced leakConfig))
      (initial leakConfig) (answeredRun (.mblueRemoteCall mblueLogService 0 16) ++
        [(0, .go), (0, .go), (0, .go), (0, .go), (2, .go), (2, .go), (2, .finish 0)]) = some t ∧
    decide (Settled t) = true ∧ NoLeak t :=
  exists_of_exec_eq rfl fun _ h ↦ noLeak_of_run h

/-- An asynchronous call without notifier: the return finds no entry, and the request keeps the
reference `bus_call` has taken. -/
theorem not_noLeak_async : ¬∀ t, Run (system leakConfig).step (fun _ _ ↦ True)
    (initial leakConfig) t → NoLeak t := by
  intro hall
  obtain ⟨t, hexec, hvalues⟩ : ∃ t, exec (system leakConfig).step (fun _ _ ↦ True)
      (initial leakConfig) (answeredRun (.sendAsyncCall mblueLogService 0 16) ++
        [(0, .finish 0), (0, .go), (2, .finish 0)]) = some t ∧
      (decide (Settled t), t.shared.count) = (true, 31) := ⟨_, rfl, rfl⟩
  obtain ⟨hsettled, hcount⟩ := Prod.mk.inj hvalues
  have hall := (hall t (run_exec hexec) (of_decide_eq_true hsettled)).2
  rw [hcount] at hall
  cases hall

end Mblue
