import Mblue.Ledger.Accounts

/-!
# The account of the notifier

The notifier of an asynchronous call is on its way to the bus, in the call's entry, about to be
freed, or has been freed (`Ledger.notifier_step`). While a match is being completed the entry is
still there, and the free is not counted twice: the bus completes one match at a time
(`Ledger.completes_le`). Each call of the notifier puts one free on the list
(`Ledger.notified_step`), and after the free there is no call (`Ledger.unused_step`).
-/

set_option linter.unusedSectionVars false

namespace Mblue

variable {ι σ : Type} [Fintype ι] [DecidableEq ι] [DecidableEq σ] {cfg : Config ι σ}
  {A : SendArgs ι σ} {block : List UInt8} {s : State ι σ} {i : ι} {c : Cmd ι σ} {a : Choice ι σ}
  {rest cs : List (Cmd ι σ)} {sh' : Shared ι σ} {m : MsgId}

namespace Ledger

/-! ### Where it is -/

/-- A message of the call with its notifier is an asynchronous request. -/
theorem request_pn (h : Ledger cfg A block s) {p : NotifierId} (hp : A.pn = some p)
    (hm : m ∉ s.shared.msgList) (haux : (s.shared.pool m).aux.pn? = some p) :
    (s.shared.pool m).draw = A.draw ∧ pendingCall (s.shared.pool m) m =
      some ⟨m, .asyncCall, some p⟩ := by
  have hdraw := h.msg_pn m p hm hp haux
  obtain ⟨-, -, htype, -⟩ := h.request hm hdraw
  have hpn : (s.shared.pool m).aux = .pn p := by
    cases ha : (s.shared.pool m).aux <;> rw [ha] at haux <;> cases haux
    rfl
  rw [h.gives.async p hp] at htype
  refine ⟨hdraw, ?_⟩
  rw [pendingCall, htype, hpn]

/-- Only an asynchronous entry carries a notifier. -/
theorem entry_pn (h : Ledger cfg A block s) {major : Major} {e : PendingCall} {p : NotifierId}
    (he : e ∈ s.shared.callList major) (hp : e.notifier = some p) : e.callType = .asyncCall :=
  (pn_of_pendingCall (h.linked major e he).2.2 hp).2

/-- A message carries the call's notifier to the bus as its arguments did. -/
theorem waiting_sent (h : Ledger cfg A block s) {b : SendArgs ι σ} (hb : .send b ∈ s.threads i)
    {sh : Shared ι σ} (hpool : sh.pool m = initMessage cfg b) {p : NotifierId}
    (hp : A.pn = some p) : waiting cfg sh m = some p ↔ b.pn = some p := by
  rw [waiting_eq_some, hpool]
  refine ⟨fun hw ↦ pn_initMessage hw.2, fun hbp ↦ ?_⟩
  obtain rfl := h.send_eq i b hb (h.send_pn i b p hb hp hbp)
  have haux : b.aux = .pn p := by
    rw [SendArgs.aux, h.gives.async p hp, hp]
    rfl
  refine ⟨?_, ?_⟩
  · show some (b.dst.getD cfg.bus) = _
    rw [h.gives.dst]
    rfl
  · show b.aux.pn? = _
    rw [haux]
    rfl

/-- A request that waits for the bus carries the notifier of the entry it is to get. -/
theorem waiting_iff_notifier (h : Ledger cfg A block s) (hm : m ∉ s.shared.msgList)
    (hdst : (s.shared.pool m).dst = some cfg.bus) {e : PendingCall}
    (hentry : pendingCall (s.shared.pool m) m = some e) {p : NotifierId} (hp : A.pn = some p) :
    waiting cfg s.shared m = some p ↔ e.notifier = some p := by
  refine waiting_eq_some.trans ⟨fun hw ↦ ?_, fun hnotifier ↦ ?_⟩
  · rw [(h.request_pn hp hm hw.2).2] at hentry
    exact Option.some.inj hentry ▸ rfl
  · exact ⟨hdst, (pn_of_pendingCall hentry hnotifier).1⟩

/-- A replica carries no notifier: it is a signal, and only a request has one. -/
theorem waiting_replica (h : Ledger cfg A block s) (hm : m ∉ s.shared.msgList)
    (htype : (s.shared.pool m).type = some .signal) {ms : σ} {sh : Shared ι σ} {r : MsgId}
    (hpool : sh.pool r = replicate (s.shared.pool m) ms) {p : NotifierId} (hp : A.pn = some p) :
    waiting cfg sh r ≠ some p := by
  rw [Ne, waiting_eq_some, hpool]
  exact fun hw ↦ h.draw_ne_of_type hm htype rfl (h.msg_pn m p hm hp hw.2)

omit [Fintype ι] in
/-- The free of a notifier is its event. -/
theorem count_notifierFreed (q p : NotifierId) :
    [Event.notifierFreed (ι := ι) (σ := σ) q].count (.notifierFreed p) = [q].count p := by
  rw [List.count_singleton, List.count_singleton]
  refine if_congr ?_ rfl rfl
  rw [beq_iff_eq, beq_iff_eq, Event.notifierFreed.injEq]

/-- **The notifier changes hands**: a step that leaves the queues alone trades its holders, its
entries and its frees. -/
theorem notifier_traded (h : Ledger cfg A block s) (hc : s.threads i = c :: rest)
    (he : Effect cfg i c a s.shared sh' cs) (hok : unbroken cfg A c a s.shared = true)
    (hremove : c ≠ .remove) (hpost : ∀ t m, c ≠ .post t m) {p : NotifierId}
    (hp : A.pn = some p) :
    (cs.filterMap ((looseNotifiers cfg).cmd sh')).count p + notifierEntries sh' p +
        (emitted s.shared c cs).count (.notifierFreed p) +
        ([c].filterMap Cmd.completes?).count p =
      ([c].filterMap ((looseNotifiers cfg).cmd s.shared)).count p +
        notifierEntries s.shared p + (cs.filterMap Cmd.completes?).count p := by
  have hknows := h.knows i c (Good.mem_head hc)
  cases he with
  | removed => exact absurd rfl hremove
  | postFull => exact absurd rfl (hpost _ _)
  | postDone => exact absurd rfl (hpost _ _)
  | userCall hmay =>
    rename_i k f
    have hloose : (((callApi cfg i s.shared f).2 ++ [Cmd.userCode k]).filterMap
        ((looseNotifiers cfg).cmd (callApi cfg i s.shared f).1)).count p = 0 := by
      rw [List.filterMap_append, List.count_append, count_callApi
        (fun b hb ↦ (h.new_send (.userCall hmay) (List.mem_append_left _ hb)).2 p hp)
        fun o heq ↦ by cases heq]
      rfl
    have hnone : (((callApi cfg i s.shared f).2 ++ [Cmd.userCode k]).filterMap
        Cmd.completes?).count p = 0 := by
      rw [List.filterMap_append, List.count_append,
        count_callApi (fun b _ heq ↦ by cases heq) fun o heq ↦ by cases heq]
      rfl
    have hentries : notifierEntries (callApi cfg i s.shared f).1 p = notifierEntries s.shared p :=
      notifierEntries_congr (sameMessages_callApi cfg i s.shared f).callList_eq p
    rw [hloose, hnone, hentries]
    rfl
  | sendFailed hnone =>
    rename_i b
    -- the request of the call itself finds a message
    have hne : b.pn ≠ some p := fun hb ↦ by
      have hdraw := h.send_pn i b p (Good.mem_head hc) hp hb
      rw [unbroken, hdraw, bne_self_eq_false, hnone] at hok
      cases hok
    have hzero : ([Cmd.send b].filterMap ((looseNotifiers cfg).cmd s.shared)).count p = 0 :=
      count_token_of_ne hne
    rw [hzero]
    rfl
  | sendDone halloc hctx =>
    rename_i b n t
    obtain ⟨free, -, rfl⟩ := alloc_eq_some halloc
    have hsame : ([Cmd.post t n].filterMap ((looseNotifiers cfg).cmd { s.shared with
        count := s.shared.count - 1
        msgList := free
        pool := Function.update s.shared.pool n (initMessage cfg b) })).count p =
        ([Cmd.send b].filterMap ((looseNotifiers cfg).cmd s.shared)).count p :=
      count_token_congr (h.waiting_sent (Good.mem_head hc) (Function.update_self _ _ _) hp)
    show ([Cmd.post t n].filterMap _).count p + _ + _ + _ = _
    rw [hsame]
    rfl
  | subscribeReleased haux hmajor =>
    rename_i n ms major
    rw [notifierEntries_congr (callList_release s.shared n)]
    rfl
  | released =>
    rename_i n
    rw [notifierEntries_congr (callList_release s.shared n)]
    rfl
  | loopReplicated hctx halloc =>
    rename_i n ms subs t r sh₁
    obtain ⟨free, hfree, rfl⟩ := alloc_eq_some halloc
    have hzero : ([Cmd.post t r].filterMap ((looseNotifiers cfg).cmd (Shared.log { s.shared with
        count := s.shared.count - 1
        msgList := free
        pool := Function.update s.shared.pool r (replicate (s.shared.pool n) ms) }
        (.replica (s.shared.pool n) (replicate (s.shared.pool n) ms))))).count p = 0 :=
      count_token_of_ne (h.waiting_replica (h.in_use hc rfl) hknows.2.1
        (Function.update_self _ _ _) hp)
    show ([Cmd.post t r].filterMap _).count p + _ + _ + _ = _
    rw [hzero]
    rfl
  | callNoSegment hmajor hnode =>
    rename_i n major
    have hzero : ([Cmd.busCall n].filterMap ((looseNotifiers cfg).cmd s.shared)).count p = 0 := by
      refine count_token_of_ne fun hw ↦ ?_
      refine draw_ne_of_busCall hok (fun major' ms hm hms ↦ .inr ?_)
        (h.msg_pn n p (h.in_use hc rfl) hp (waiting_eq_some.1 hw).2)
      obtain rfl := Option.some.inj (hmajor.symm.trans hm)
      exact hnode ms hms
    rw [hzero]
    rfl
  | callNoMemory hmajor hnode hctx hentry =>
    rename_i n major ms t e
    have hzero : ([Cmd.busCall n].filterMap ((looseNotifiers cfg).cmd s.shared)).count p = 0 :=
      count_token_of_ne fun hw ↦ bne_iff_ne.1 hok
        (h.msg_pn n p (h.in_use hc rfl) hp (waiting_eq_some.1 hw).2)
    rw [hzero]
    rfl
  | callNoEntry hmajor hnode hctx hentry =>
    rename_i n major ms t
    have hne : (s.shared.pool n).aux.pn? ≠ some p := fun haux ↦ by
      rw [(h.request_pn hp (h.in_use hc rfl) haux).2] at hentry
      cases hentry
    have hbefore : ([Cmd.busCall n].filterMap ((looseNotifiers cfg).cmd s.shared)).count p = 0 :=
      count_token_of_ne fun hw ↦ hne (waiting_eq_some.1 hw).2
    have hafter : ([Cmd.post t n].filterMap
        ((looseNotifiers cfg).cmd (s.shared.forward n ms))).count p = 0 := by
      refine count_token_of_ne fun hw ↦ hne ?_
      have haux := (waiting_eq_some.1 hw).2
      rwa [pool_forward, Function.update_self] at haux
    rw [hbefore, hafter]
    rfl
  | callLinked hmajor hnode hctx hentry =>
    rename_i n major ms t e
    have hfree := h.in_use hc rfl
    have hbefore : ([Cmd.busCall n].filterMap ((looseNotifiers cfg).cmd s.shared)).count p =
        ([e].filterMap (·.notifier)).count p :=
      count_token_congr (h.waiting_iff_notifier hfree hknows.2.2 hentry hp)
    let sh₁ := ((s.shared.link major e).log (.linked major e (s.shared.pool n).seq)).forward n ms
    have hafter : ([Cmd.post t n].filterMap ((looseNotifiers cfg).cmd sh₁)).count p = 0 := by
      refine count_token_of_ne fun hw ↦ ?_
      obtain ⟨hdst, haux⟩ := waiting_eq_some.1 hw
      rw [pool_forward, Function.update_self] at hdst haux
      refine draw_ne_of_busCall hok (fun major' ms' hm hms ↦ .inl ⟨by rw [hp]; exact Option.some_ne_none p, ?_⟩)
        (h.request_pn hp hfree haux).1
      obtain rfl := Option.some.inj (hmajor.symm.trans hm)
      obtain rfl := Option.some.inj (hnode.symm.trans hms)
      exact Option.some.inj hdst
    have hlink := notifierEntries_link s.shared major e p
    have hentries : notifierEntries sh₁ p = notifierEntries (s.shared.link major e) p := rfl
    rw [hbefore, hafter, hentries, hlink]
    show 0 + _ + 0 + 0 = _ + _ + 0
    omega
  | returnOther hmajor hfind hother =>
    rename_i d major e
    -- what has a notifier is asynchronous
    have hne : e.notifier ≠ some p := fun hnotifier ↦ by
      have htype := h.entry_pn (List.mem_of_find?_eq_some hfind) hnotifier
      rcases hother with hcall | ⟨hsync, -⟩
      · rw [htype] at hcall
        cases hcall
      · rw [htype] at hsync
        cases hsync
    have hzero : ([Cmd.complete major e, .release d].filterMap
        (Cmd.completes? (ι := ι) (σ := σ))).count p = 0 := count_token_of_ne hne
    rw [hzero]
    rfl
  | returnSync hmajor hfind htype hsrc haux =>
    rename_i d major e t o
    have hne : e.notifier ≠ some p := fun hnotifier ↦ by
      rw [h.entry_pn (List.mem_of_find?_eq_some hfind) hnotifier] at htype
      cases htype
    have hzero : ([Cmd.tpost t o, .complete major e, .release d].filterMap
        (Cmd.completes? (ι := ι) (σ := σ))).count p = 0 := count_token_of_ne hne
    rw [hzero]
    rfl
  | returnAsync hmajor hfind htype hnotifier =>
    rename_i d major e q
    have hsame : ([Cmd.freeNotifier q].filterMap ((looseNotifiers cfg).cmd s.shared)).count p =
        ([Cmd.complete (ι := ι) (σ := σ) major e].filterMap Cmd.completes?).count p :=
      count_token_congr (by rw [Cmd.completes?, hnotifier]; rfl)
    have hevent : [Event.notified (ι := ι) (σ := σ) q (s.shared.pool d).smartPayload].count
        (.notifierFreed p) = 0 := count_singleton_of_ne fun heq ↦ by cases heq
    show ([Cmd.freeNotifier q].filterMap ((looseNotifiers cfg).cmd s.shared)).count p +
      notifierEntries s.shared p + [Event.notified q _].count _ + 0 = 0 + notifierEntries s.shared p
        + ([Cmd.complete (ι := ι) (σ := σ) major e].filterMap Cmd.completes?).count p
    omega
  | notifierFreed =>
    rename_i q
    show 0 + notifierEntries s.shared p + [Event.notifierFreed q].count _ + 0 =
      [q].count p + notifierEntries s.shared p + 0
    rw [count_notifierFreed]
    omega
  | completed =>
    rename_i major e
    have hlist := callList_release s.shared e.msg
    have hmem : e ∈ (s.shared.release e.msg).callList major := hlist ▸ hknows.2
    -- the entry goes, and with it the match that was being completed
    have hunlink := notifierEntries_unlink hmem p
    rw [notifierEntries_congr hlist] at hunlink
    have hentries : notifierEntries (((s.shared.release e.msg).unlink major e).log
        (.unlinked major e)) p = notifierEntries ((s.shared.release e.msg).unlink major e) p := rfl
    show 0 + _ + 0 + ([e].filterMap (·.notifier)).count p = 0 + notifierEntries s.shared p + 0
    omega
  | finishedPayload hpb =>
    rename_i n
    have hevent : (emitted s.shared (.finish n) [.release n]).count (.notifierFreed p) = 0 := by
      rw [emitted, if_pos hpb]
      exact count_singleton_of_ne fun heq ↦ by cases heq
    rw [hevent]
    rfl
  | finishedPlain hpb =>
    rename_i n
    rw [emitted, hpb, if_neg Bool.false_ne_true]
    rfl
  | tpendTaken hsem =>
    rename_i t o d tail
    cases o <;> rfl
  | _ => rfl

omit [Fintype ι] [DecidableEq ι] in
/-- Only `bus_call` takes a notifier from the queue. -/
theorem looseNotifiers_handler {sh : Shared ι σ} {ms : σ} {type : MessageType}
    {handler : Cmd ι σ} (h : getHandler cfg ms m type = some handler) {p : NotifierId} :
    (looseNotifiers cfg).cmd sh handler = some p ↔
      (type.isCall = true ∧ ms = cfg.bus) ∧ waiting cfg sh m = some p := by
  cases handles_of_getHandler h with
  | busCall hbus hcall => exact (and_iff_right ⟨hcall, hbus⟩).symm
  | call hne => exact ⟨fun h ↦ (by cases h), fun h ↦ absurd h.1.2 hne⟩
  | signal hne => exact ⟨fun h ↦ (by cases h), fun h ↦ absurd h.1.2 hne⟩
  | _ => exact ⟨fun h ↦ (by cases h), fun h ↦ (by cases h.1.1)⟩

omit [Fintype ι] [DecidableEq ι] in
/-- A handler does not start with the end of a match. -/
theorem completes_handler {ms : σ} {type : MessageType} {handler : Cmd ι σ}
    (h : getHandler cfg ms m type = some handler) : handler.completes? = none := by
  cases handles_of_getHandler h <;> rfl

/-- The handler of a queued message carries its notifier on, if the message waits for the bus. -/
theorem waiting_handler (h : Ledger cfg A block s) {ms : σ} {type : MessageType}
    {handler : Cmd ι σ} (hm : m ∉ s.shared.msgList) (hdst : (s.shared.pool m).dst = some ms)
    (htype : (s.shared.pool m).type = some type)
    (hhandler : getHandler cfg ms m type = some handler) {p : NotifierId} (hp : A.pn = some p) :
    (looseNotifiers cfg).cmd s.shared handler = some p ↔ waiting cfg s.shared m = some p := by
  rw [looseNotifiers_handler hhandler]
  refine and_iff_right_of_imp fun hw ↦ ?_
  obtain ⟨hbus, haux⟩ := waiting_eq_some.1 hw
  have hrequest := (h.request hm (h.msg_pn m p hm hp haux)).1
  rw [Message.isCall_of_type htype] at hrequest
  exact ⟨hrequest, Option.some.inj (hdst.symm.trans hbus)⟩

/-- **The notifier is accounted for**: it is on its way, an entry carries it, or it has been freed;
while its entry is being completed there is one of these more. -/
theorem notifier_step (h : Ledger cfg A block s) (hc : s.threads i = c :: rest)
    (he : Effect cfg i c a s.shared sh' cs) (hok : unbroken cfg A c a s.shared = true)
    {p : NotifierId} (hp : A.pn = some p) :
    (looseNotifiers cfg).total ⟨sh', Function.update s.threads i (cs ++ rest)⟩ p +
        notifierEntries sh' p + (heapEvents sh').count (.notifierFreed p) =
      1 + mentions Cmd.completes? (Function.update s.threads i (cs ++ rest)) p := by
  have hbefore := h.notifier p hp
  have hmove := move_of_effect he
  have hcompletes := mentions_expand Cmd.completes? hc cs p
  have hevents : (heapEvents sh').count (.notifierFreed p) =
      (heapEvents s.shared).count (.notifierFreed p) +
        (emitted s.shared c cs).count (.notifierFreed p) := by
    rw [he.heapEvents_eq, List.count_append]
  by_cases hqueue : c = .remove ∨ ∃ t m, c = .post t m
  · cases he with
    | removed hmq hdst htype hhandler =>
      rename_i n tail ms type handler
      have hfree : n ∉ s.shared.msgList := h.not_free_of_mq (hmq ▸ List.mem_cons_self)
      have htotal := Tally.total_removed (T := looseNotifiers cfg) (b := p) hc hmq handler
      have hsame : ([handler].filterMap ((looseNotifiers cfg).cmd s.shared)).count p =
          ([n].filterMap ((looseNotifiers cfg).msg s.shared)).count p :=
        count_token_congr (h.waiting_handler hfree hdst htype hhandler hp)
      have hremove : ([Cmd.remove].filterMap ((looseNotifiers cfg).cmd s.shared)).count p = 0 := rfl
      have hnothing : (emitted s.shared .remove [handler]).count (.notifierFreed p) = 0 := rfl
      have hnone : ([handler].filterMap Cmd.completes?).count p = 0 :=
        count_token_of_ne (completes_handler hhandler ▸ fun heq ↦ by cases heq)
      have hentries : notifierEntries { s.shared with
          mq := Function.update s.shared.mq i tail } p = notifierEntries s.shared p := rfl
      have hremoved : ([Cmd.remove (ι := ι) (σ := σ)].filterMap Cmd.completes?).count p = 0 := rfl
      dsimp only at htotal hentries
      omega
    | postFull hfull =>
      rename_i t n
      have htotal := Tally.total_step (T := looseNotifiers cfg) h.toGood hc hmove rfl p
      have hzero : ([Cmd.post t n].filterMap ((looseNotifiers cfg).cmd s.shared)).count p = 0 := by
        refine count_token_of_ne fun hw ↦ ?_
        have hdraw := h.msg_pn n p (h.in_use hc rfl) hp (waiting_eq_some.1 hw).2
        rw [unbroken, hdraw, bne_self_eq_false, Bool.false_or, decide_eq_true_eq] at hok
        exact absurd hok (Nat.not_lt_of_le hfull)
      have hnil : (([] : List (Cmd ι σ)).filterMap ((looseNotifiers cfg).cmd s.shared)).count p =
        0 := rfl
      have hnothing : (emitted s.shared (.post t n) []).count (.notifierFreed p) = 0 := rfl
      have hpost : ([Cmd.post (σ := σ) t n].filterMap Cmd.completes?).count p = 0 := rfl
      have hnone : (([] : List (Cmd ι σ)).filterMap Cmd.completes?).count p = 0 := rfl
      omega
    | postDone hroom =>
      rename_i t n
      have htotal := Tally.total_posted (T := looseNotifiers cfg) hc p
      have hsame : ([Cmd.post t n].filterMap ((looseNotifiers cfg).cmd s.shared)).count p =
          ([n].filterMap ((looseNotifiers cfg).msg s.shared)).count p := rfl
      have hsem : ([Cmd.semPost t].filterMap ((looseNotifiers cfg).cmd s.shared)).count p = 0 := rfl
      have hnothing : (emitted s.shared (.post t n) [.semPost t]).count (.notifierFreed p) = 0 :=
        rfl
      have hpost : ([Cmd.post (σ := σ) t n].filterMap Cmd.completes?).count p = 0 := rfl
      have hnone : ([Cmd.semPost (σ := σ) t].filterMap Cmd.completes?).count p = 0 := rfl
      have hentries : notifierEntries { s.shared with
          mq := Function.update s.shared.mq t (s.shared.mq t ++ [n]) } p =
        notifierEntries s.shared p := rfl
      dsimp only at htotal hentries
      omega
    | _ => exact absurd hqueue (by simp)
  · rw [not_or, not_exists] at hqueue
    have hpost : ∀ t m, c ≠ .post t m := fun t m heq ↦ hqueue.2 t ⟨m, heq⟩
    have htotal := Tally.total_step (T := looseNotifiers cfg) h.toGood hc hmove
      (hmove.mq_eq hqueue.1 hpost) p
    have htraded := h.notifier_traded hc he hok hqueue.1 hpost hp
    omega

omit [Fintype ι] in
/-- **Every call of a notifier puts its free on the list.** -/
theorem notified_traded (he : Effect cfg i c a s.shared sh' cs) (p : NotifierId) :
    ((emitted s.shared c cs).filterMap Event.notifies?).count p +
        ([c].filterMap Cmd.freesNotifier?).count p =
      (cs.filterMap Cmd.freesNotifier?).count p +
        (emitted s.shared c cs).count (.notifierFreed p) := by
  cases he with
  | userCall hmay =>
    rename_i k f
    have hnone : (((callApi cfg i s.shared f).2 ++ [Cmd.userCode k]).filterMap
        Cmd.freesNotifier?).count p = 0 := by
      rw [List.filterMap_append, List.count_append,
        count_callApi (fun b _ heq ↦ by cases heq) fun o heq ↦ by cases heq]
      rfl
    rw [hnone]
    rfl
  | removed hmq hdst htype hhandler =>
    rename_i n tail ms type handler
    have hnone : handler.freesNotifier? ≠ some p := by
      cases handles_of_getHandler hhandler <;> exact Option.some_ne_none p ∘ Eq.symm
    rw [count_token_of_ne hnone]
    rfl
  | notifierFreed =>
    rename_i q
    show 0 + [q].count p = 0 + [Event.notifierFreed q].count _
    rw [count_notifierFreed]
  | returnAsync hmajor hfind htype hnotifier =>
    rename_i d major e q
    have hevent : [Event.notified (ι := ι) (σ := σ) q (s.shared.pool d).smartPayload].count
        (.notifierFreed p) = 0 := count_singleton_of_ne fun heq ↦ by cases heq
    show [q].count p + 0 = [q].count p + [Event.notified q _].count _
    rw [hevent]
  | finishedPayload hpb =>
    rename_i n
    have hevent : [Event.freed (s.shared.pool n).draw (s.shared.pool n).smartPayload].count
        (.notifierFreed (ι := ι) (σ := σ) p) = 0 := count_singleton_of_ne fun heq ↦ by cases heq
    rw [emitted, if_pos hpb, hevent]
    rfl
  | finishedPlain hpb =>
    rename_i n
    rw [emitted, hpb, if_neg Bool.false_ne_true]
    rfl
  | _ => rfl

/-- **Every notifier that was called is to be freed, or was.** -/
theorem notified_step (h : Ledger cfg A block s) (hc : s.threads i = c :: rest)
    (he : Effect cfg i c a s.shared sh' cs) {p : NotifierId} (hp : A.pn = some p) :
    ((heapEvents sh').filterMap Event.notifies?).count p =
      mentions Cmd.freesNotifier? (Function.update s.threads i (cs ++ rest)) p +
        (heapEvents sh').count (.notifierFreed p) := by
  have hbefore := h.notified p hp
  have hfrees := mentions_expand Cmd.freesNotifier? hc cs p
  have htraded := notified_traded he p
  rw [he.heapEvents_eq, List.filterMap_append, List.count_append, List.count_append]
  omega

/-- A match that is being completed has its entry. -/
theorem completes_le (h : Good cfg s) (p : NotifierId) :
    mentions Cmd.completes? s.threads p ≤ notifierEntries s.shared p := by
  rcases Nat.eq_zero_or_pos (mentions Cmd.completes? s.threads p) with hzero | hpos
  · rw [hzero]
    exact Nat.zero_le _
  · obtain ⟨j, d, hd, hdp⟩ := exists_of_mentions_pos hpos
    -- only the bus completes matches, one at a time
    have hone : mentions Cmd.completes? s.threads p ≤ 1 := by
      have hoff : ∀ k ∈ (Finset.univ : Finset ι), k ≠ cfg.busTask →
          ((s.threads k).map fun c ↦ ([c].filterMap Cmd.completes?).count p).sum = 0 := by
        intro k _ hk
        rw [sum_mentioned]
        refine count_tokens_of_ne fun x hx hxp ↦ ?_
        cases x <;> first | exact hk (h.knows k _ hx).1 | cases hxp
      have hsum := Finset.sum_eq_single (s := Finset.univ) cfg.busTask hoff
        (fun hne ↦ absurd (Finset.mem_univ _) hne)
      have hle : ((s.threads cfg.busTask).map
          fun c ↦ ([c].filterMap Cmd.completes?).count p).sum ≤
          ((s.threads cfg.busTask).map Cmd.core).sum := by
        refine List.sum_le_sum fun x _ ↦ ?_
        cases hx : x.completes? with
        | none => simp [hx]
        | some q =>
          have hcore : x.core = 1 := by
            cases x <;> first | rfl | cases hx
          rw [hcore, List.filterMap_cons_some hx]
          exact List.count_le_length
      exact hsum.le.trans (hle.trans (h.single cfg.busTask))
    obtain ⟨major, e, rfl, hep⟩ : ∃ major e, d = .complete major e ∧ e.notifier = some p := by
      cases d <;> first | exact ⟨_, _, rfl, hdp⟩ | cases hdp
    have hmem := (h.knows j _ hd).2
    exact hone.trans (notifierEntries_pos hmem hep)

omit [Fintype ι] in
theorem notified_of_emitted {sh : Shared ι σ} {p : NotifierId} {w : Word}
    (h : .notified p w ∈ emitted sh c cs) : ∃ d, c = .busCallReturn d := by
  rw [emitted.eq_def] at h
  split at h
  · split at h <;> simp at h
  · exact ⟨_, rfl⟩
  · simp at h
  · simp at h

omit [Fintype ι] in
theorem emitted_pairwise {sh : Shared ι σ} {R : Event ι σ → Event ι σ → Prop} :
    (emitted sh c cs).Pairwise R := by
  rw [emitted.eq_def]
  split
  · split
    · exact List.pairwise_singleton _ _
    · exact .nil
  · exact List.pairwise_singleton _ _
  · exact List.pairwise_singleton _ _
  · exact .nil

/-- **A notifier that has been freed is not called.** -/
theorem unused_step (h : Ledger cfg A block s) (hc : s.threads i = c :: rest)
    (he : Effect cfg i c a s.shared sh' cs) {p : NotifierId} (hp : A.pn = some p) :
    (heapEvents sh').Pairwise fun e e' ↦ e = .notifierFreed p → e'.notifies? ≠ some p := by
  rw [he.heapEvents_eq, List.pairwise_append]
  refine ⟨h.unused p hp, emitted_pairwise, ?_⟩
  rintro e hfreed e' hnew rfl hcalled
  obtain ⟨q, w, rfl⟩ : ∃ q w, e' = .notified q w := by
    cases e' <;> first | exact ⟨_, _, rfl⟩ | cases hcalled
  obtain rfl := Option.some.inj hcalled
  obtain ⟨d, rfl⟩ := notified_of_emitted hnew
  obtain ⟨major, e, hmem, hep⟩ := he.notified_origin hnew
  -- the entry that was found and the free leave a match that is being completed
  have hcount := h.notifier q hp
  have hentry := notifierEntries_pos hmem hep
  have hfreed := List.count_pos_iff.2 hfreed
  have hpos : 0 < mentions Cmd.completes? s.threads q := by omega
  obtain ⟨j, x, hx, hxp⟩ := exists_of_mentions_pos hpos
  obtain ⟨major', e', rfl⟩ : ∃ major' e', x = .complete major' e' := by
    cases x <;> first | exact ⟨_, _, rfl⟩ | cases hxp
  -- but the bus works on the return now
  have hbus := (h.knows j _ hx).1
  have hi : i = cfg.busTask := (h.knows i _ (Good.mem_head hc)).1
  rw [hbus, ← hi, hc, List.mem_cons] at hx
  have hcore := h.core_unique hc rfl (hx.resolve_left fun heq ↦ by cases heq)
  cases hcore

end Ledger

end Mblue
