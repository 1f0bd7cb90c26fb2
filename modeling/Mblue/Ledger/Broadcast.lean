import Mblue.Ledger.Handed
import Mblue.System.SignalEvents

/-!
# The account of a broadcast block

A broadcast hands its payload block over to one message. The bus makes a replica of this message for
each subscription that is bound to a task, and drops the message itself without its payload; the
handler of each replica frees the block.

So the block stands to the account of what is still going to be handled (`dues`). `Aired` says that
this is one thing until the block is freed. Every step keeps it (`Aired.step`) if the bus finds one
such subscription and nothing of the broadcast is lost (`heardOnce`); a broadcast opens it
(`Broadcasts.aired`).
-/

set_option linter.unusedSectionVars false

namespace Mblue

variable {ι σ : Type}

/-! ### Who is going to free the block -/

/-- `bus_signal` makes a replica for the segment, which is bound to a task. -/
def hears (cfg : Config ι σ) (ms : σ) : Bool := (cfg.context ms).isSome

/-- The draws whose payload a handler is still going to free: the message in the loop of
`bus_signal` stands for the replicas that are not made yet. -/
def dues (cfg : Config ι σ) : Tally ι σ ℕ where
  cmd sh c :=
    match c with
    | .send a => some a.draw
    | .busSignalLoop m subs => if subs.any (hears cfg) then some (sh.pool m).draw else none
    | c => c.frees?.map fun m ↦ (sh.pool m).draw
  msg sh m := some (sh.pool m).draw
  cmd_congr := by
    intro sh sh' c h _
    cases c with
    | userCode k =>
      cases k with
      | signal ms m | service ms m f args => exact draw_congr (h m rfl)
      | _ => rfl
    | busSignalLoop m subs =>
      have hdraw := Message.draw_eq (h m rfl).1
      dsimp only
      rw [hdraw]
    | post _ m | busCall m | busSignal m | signalHandler _ m | ipcHandler _ m | finish m =>
      exact draw_congr (h m rfl)
    | _ => rfl
  msg_congr := @draw_congr ι σ

/-- What stands for a payload sends it, or may still free it. -/
theorem dues_eq_some {cfg : Config ι σ} {sh : Shared ι σ} {c : Cmd ι σ} {d : ℕ}
    (h : (dues cfg).cmd sh c = some d) : (∃ a, c = .send a ∧ a.draw = d) ∨
      ∃ m, c.frees? = some m ∧ (sh.pool m).draw = d := by
  cases c with
  | send a => exact .inl ⟨a, rfl, Option.some.inj h⟩
  | busSignalLoop m subs =>
    exact .inr ⟨m, rfl, Option.some.inj (Option.ite_none_right_eq_some.1 h).2⟩
  | _ => exact .inr (Option.map_eq_some_iff.1 h)

/-- The loop of `bus_signal` stands for its message if someone is still to hear it. -/
theorem dues_loop {cfg : Config ι σ} {sh : Shared ι σ} {m : MsgId} {subs : List σ}
    (h : 0 < subs.countP (hears cfg)) :
    (dues cfg).cmd sh (.busSignalLoop m subs) = some (sh.pool m).draw := by
  rw [List.countP_pos_iff, ← List.any_eq_true] at h
  exact if_pos h

theorem dues_loop_eq_none {cfg : Config ι σ} {sh : Shared ι σ} {m : MsgId} {subs : List σ}
    (h : subs.countP (hears cfg) = 0) : (dues cfg).cmd sh (.busSignalLoop m subs) = none := by
  refine if_neg fun hany ↦ ?_
  have hpos := List.countP_pos_iff.2 (List.any_eq_true.1 hany)
  omega

/-! ### One subscription -/

section HeardOnce

variable [DecidableEq ι] [DecidableEq σ]

/-- One subscription is bound to a task, and it is not the bus's own, to which the broadcast would
come back. -/
def soleHearer (cfg : Config ι σ) (subs : List σ) : Bool :=
  subs.countP (hears cfg) == 1 && !subs.contains cfg.bus

/-- What a broadcast needs for its block to be freed once: its message finds a free message and its
copies find room in the queues, the bus finds one subscription to relay it to, and the block is not
passed on before it is freed. -/
def heardOnce (cfg : Config ι σ) (A : SendArgs ι σ) (c : Cmd ι σ) (a : Choice ι σ)
    (sh : Shared ι σ) : Bool :=
  match c, a with
  | .send args, _ => args.draw != A.draw || (sh.alloc (initMessage cfg args)).isSome
  | .post t m, _ => (sh.pool m).draw != A.draw || decide ((sh.mq t).length < cfg.capacity t)
  | .busSignal m, _ => (sh.pool m).draw != A.draw ||
    (sh.pool m).major.any fun major ↦ soleHearer cfg (sh.publishList major)
  | .userCode _, .api f => f.payload? != some A.input ||
    sh.trace.contains (.freed A.draw A.input)
  | _, _ => true

/-- No reference counter wraps around, and one subscription hears the broadcast. -/
def HeardOnce (cfg : Config ι σ) (A : SendArgs ι σ) (i : ι) (c : Cmd ι σ) (a : Choice ι σ)
    (sh : Shared ι σ) : Prop :=
  NoWrap i c a sh ∧ heardOnce cfg A c a sh = true

instance (cfg : Config ι σ) (A : SendArgs ι σ) (i : ι) (c : Cmd ι σ) (a : Choice ι σ)
    (sh : Shared ι σ) : Decidable (HeardOnce cfg A i c a sh) :=
  inferInstanceAs (Decidable (_ ∧ _))

/-- The bus finds one subscription for the broadcast. -/
theorem countP_of_heardOnce {cfg : Config ι σ} {A : SendArgs ι σ} {a : Choice ι σ}
    {sh : Shared ι σ} {m : MsgId} {major : Major}
    (h : heardOnce cfg A (.busSignal m) a sh = true) (hdraw : (sh.pool m).draw = A.draw)
    (hmajor : (sh.pool m).major = some major) :
    (sh.publishList major).countP (hears cfg) = 1 := by
  rw [heardOnce, hdraw, bne_self_eq_false, Bool.false_or, hmajor, Option.any_some, soleHearer,
    Bool.and_eq_true] at h
  exact beq_iff_eq.1 h.1

end HeardOnce

/-! ### The invariant -/

section Invariant

variable [Fintype ι] [DecidableEq ι] [DecidableEq σ]

/-- The account of a broadcast: one thing is still going to free the block, or it has been freed
once and no handler is called with it any more. -/
structure Aired (cfg : Config ι σ) (A : SendArgs ι σ) (block : List UInt8) (s : State ι σ) :
    Prop extends Handed cfg A block s where
  isSignal : A.type = .signal
  loop_le : ∀ i m subs, .busSignalLoop m subs ∈ s.threads i →
    (s.shared.pool m).draw = A.draw → subs.countP (hears cfg) ≤ 1
  due : (dues cfg).total s A.draw + (heapEvents s.shared).count (.freed A.draw A.input) = 1
  unused : (signalEvents s.shared).Pairwise
    fun e e' ↦ e = .freed A.draw A.input → ∀ ms, e' ≠ .called ms A.draw A.input

variable {cfg : Config ι σ} {A : SendArgs ι σ} {block : List UInt8} {s : State ι σ} {i : ι}
  {c : Cmd ι σ} {a : Choice ι σ} {rest cs : List (Cmd ι σ)} {sh' : Shared ι σ} {m : MsgId}

namespace Aired

/-- The executed command's message is in use. -/
theorem in_use (h : Aired cfg A block s) (hc : s.threads i = c :: rest) (hm : c.msg? = some m) :
    m ∉ s.shared.msgList := h.not_free (Good.mem_head hc) hm

/-- What is no signal is no message of the broadcast. -/
theorem draw_ne_of_call (h : Aired cfg A block s) (hm : m ∉ s.shared.msgList)
    (hcall : (s.shared.pool m).isCall = true) : (s.shared.pool m).draw ≠ A.draw := by
  intro hdraw
  rw [Message.isCall_of_type (h.message hm hdraw).1, h.isSignal] at hcall
  cases hcall

/-! ### One step -/

theorem loop_le_step (h : Aired cfg A block s) (hc : s.threads i = c :: rest)
    (he : Effect cfg i c a s.shared sh' cs) (hok : heardOnce cfg A c a s.shared = true) :
    ∀ j m subs, .busSignalLoop m subs ∈ Function.update s.threads i (cs ++ rest) j →
      (sh'.pool m).draw = A.draw → subs.countP (hears cfg) ≤ 1 := by
  have hmove := move_of_effect he
  intro j m subs hm hdraw
  rcases mem_expand_iff.1 hm with ⟨rfl, hloop⟩ | hloop
  · have hold : c.msg? = some m → (s.shared.pool m).draw = A.draw := fun hcm ↦ by
      rw [← hdraw]
      exact (Message.draw_eq (hmove.header_eq (h.in_use hc hcm))).symm
    rcases he.loop_origin hloop with ⟨rfl, major, hmajor, rfl⟩ | ⟨ms, rfl⟩
    · exact (countP_of_heardOnce hok (hold rfl) hmajor).le
    · have hle := h.loop_le j m _ (Good.mem_head hc) (hold rfl)
      rw [List.countP_cons] at hle
      omega
  · refine h.loop_le j m subs (mem_of_mem_rest hc hloop) ?_
    rw [← hdraw]
    exact (Message.draw_eq (h.kept hc hmove hloop rfl).1).symm

/-- **The block changes hands**: a step that leaves the queues alone trades what is going to free the
block and its frees. -/
theorem due_traded (h : Aired cfg A block s) (hc : s.threads i = c :: rest)
    (he : Effect cfg i c a s.shared sh' cs) (hok : heardOnce cfg A c a s.shared = true)
    (hremove : c ≠ .remove) (hpost : ∀ t m, c ≠ .post t m) :
    (cs.filterMap ((dues cfg).cmd sh')).count A.draw +
        (emitted s.shared c cs).count (.freed A.draw A.input) =
      ([c].filterMap ((dues cfg).cmd s.shared)).count A.draw := by
  have hknows := h.knows i c (Good.mem_head hc)
  cases he with
  | removed => exact absurd rfl hremove
  | postFull => exact absurd rfl (hpost _ _)
  | postDone => exact absurd rfl (hpost _ _)
  | userCall hmay =>
    rename_i k f
    exact h.count_userCall hmay (fun _ _ ↦ rfl) fun _ _ ↦ rfl
  | sendFailed hnone =>
    rename_i b
    have hne : b.draw ≠ A.draw := fun heq ↦ by
      rw [heardOnce, heq, bne_self_eq_false, hnone] at hok
      cases hok
    exact (count_singleton_of_ne hne).symm
  | sendDone halloc hctx =>
    rename_i b n t
    obtain ⟨free, -, rfl⟩ := alloc_eq_some halloc
    show [(Function.update s.shared.pool n (initMessage cfg b) n).draw].count A.draw + 0 = _
    rw [Function.update_self]
    rfl
  | signalUnheard hmajor hsubs =>
    rename_i n major
    have hne : (s.shared.pool n).draw ≠ A.draw := fun heq ↦ by
      have hone := countP_of_heardOnce hok heq hmajor
      rw [hsubs] at hone
      cases hone
    exact (count_singleton_of_ne hne).symm
  | signalRelayed hmajor hsubs =>
    rename_i n major
    -- the loop takes over what the message stood for: someone hears the broadcast
    refine count_token_congr ⟨fun heq ↦ ?_, fun heq ↦ ?_⟩
    · exact congrArg some (Option.some.inj (Option.ite_none_right_eq_some.1 heq).2)
    · have hdraw : (s.shared.pool n).draw = A.draw := Option.some.inj heq
      rw [dues_loop (countP_of_heardOnce hok hdraw hmajor).ge]
      exact heq
  | loopSkipped hctx =>
    rename_i n ms subs
    have hdeaf : hears cfg ms = false := by rw [hears, hctx, Option.isSome_none]
    refine count_token_congr (Eq.congr_left ?_)
    show (if subs.any (hears cfg) then _ else _) = if (ms :: subs).any (hears cfg) then _ else _
    rw [List.any_cons, hdeaf, Bool.false_or]
  | loopReplicated hctx halloc =>
    rename_i n ms subs t r sh₁
    obtain ⟨free, hfree, rfl⟩ := alloc_eq_some halloc
    have hears : hears cfg ms = true := by rw [hears, hctx, Option.isSome_some]
    have hne : n ≠ r := fun heq ↦ h.in_use hc rfl (hfree ▸ heq ▸ List.mem_cons_self)
    have hbefore : (dues cfg).cmd s.shared (.busSignalLoop n (ms :: subs)) =
        some (s.shared.pool n).draw :=
      dues_loop (List.countP_pos_iff.2 ⟨ms, List.mem_cons_self, hears⟩)
    have hpool : ∀ {sh : Shared ι σ}, (sh.pool n).draw = (s.shared.pool n).draw →
        (s.shared.pool n).draw ≠ A.draw → (dues cfg).cmd sh (.busSignalLoop n subs) ≠ some A.draw :=
      fun hsame hdraw heq ↦ hdraw (hsame ▸ Option.some.inj (Option.ite_none_right_eq_some.1 heq).2)
    rw [List.filterMap_cons_some hbefore, List.filterMap_nil]
    show ((Function.update s.shared.pool r (replicate (s.shared.pool n) ms) r).draw ::
      [Cmd.busSignalLoop n subs].filterMap ((dues cfg).cmd _)).count A.draw + 0 = _
    rw [Function.update_self, List.count_cons, Nat.add_zero]
    by_cases hdraw : (s.shared.pool n).draw = A.draw
    · -- the replica was the last one
      have hle := h.loop_le i n _ (Good.mem_head hc) hdraw
      rw [List.countP_cons, if_pos hears] at hle
      rw [List.filterMap_cons_none (dues_loop_eq_none (by omega)), List.filterMap_nil,
        List.count_nil, Nat.zero_add, hdraw, List.count_singleton_self]
      exact if_pos (beq_iff_eq.2 hdraw)
    · rw [count_token_of_ne (hpool (congrArg Message.draw (Function.update_of_ne hne _ _)) hdraw),
        count_singleton_of_ne hdraw, Nat.zero_add]
      exact if_neg fun heq ↦ hdraw (beq_iff_eq.1 heq)
  | callNoSegment | callNoMemory =>
    exact (count_singleton_of_ne (h.draw_ne_of_call (h.in_use hc rfl) hknows.2.1)).symm
  | callNoEntry hmajor hnode hctx hentry =>
    rename_i n major ms t
    show [(Function.update s.shared.pool n _ n).draw].count A.draw + 0 = _
    rw [Function.update_self]
    rfl
  | callLinked hmajor hnode hctx hentry =>
    rename_i n major ms t e
    show [(Function.update s.shared.pool n _ n).draw].count A.draw + 0 = _
    rw [Function.update_self]
    rfl
  | requestUndecodable =>
    exact (count_singleton_of_ne (h.draw_ne_of_call (h.in_use hc rfl) hknows.2.2.1)).symm
  | serviceFinished | requestRefused =>
    have hzero := h.draw_pos.ne
    show [0, _].count A.draw + 0 = [_].count A.draw
    rw [List.count_cons, if_neg fun heq ↦ hzero (beq_iff_eq.1 heq)]
    rfl
  | finishedPayload | finishedPlain =>
    show 0 + _ = [_].count A.draw
    rw [h.emitted_finish (h.in_use hc rfl), Nat.zero_add]
  | returnAsync =>
    show 0 + [Event.notified _ _].count _ = 0
    rw [Nat.zero_add]
    refine List.count_eq_zero.2 fun hmem ↦ ?_
    cases List.mem_singleton.1 hmem
  | _ => rfl

/-- **The block is accounted for**: one thing is going to free it, or it has been freed once. -/
theorem due_step (h : Aired cfg A block s) (hc : s.threads i = c :: rest)
    (he : Effect cfg i c a s.shared sh' cs) (hok : heardOnce cfg A c a s.shared = true) :
    (dues cfg).total ⟨sh', Function.update s.threads i (cs ++ rest)⟩ A.draw +
      (heapEvents sh').count (.freed A.draw A.input) = 1 := by
  refine h.account_step hc he (fun _ ↦ rfl) (fun _ _ ↦ rfl) ⟨rfl, fun _ ↦ rfl⟩ ?_ ?_
    (h.due_traded hc he hok) h.due
  · rintro t m rfl hdraw
    rw [heardOnce, hdraw, bne_self_eq_false, Bool.false_or, decide_eq_true_eq] at hok
    exact hok
  · intro m ms type handler _ hfree htype hhandler
    have hother : type ≠ .signal → (none = some A.draw ↔ (s.shared.pool m).draw = A.draw) :=
      fun hne ↦ iff_of_false (Option.some_ne_none _ ∘ Eq.symm) fun hdraw ↦
        hne (Option.some.inj (htype.symm.trans ((h.message hfree hdraw).1.trans
          (congrArg some h.isSignal))))
    cases handles_of_getHandler hhandler with
    | subscribe => exact hother MessageType.noConfusion
    | busCallReturn => exact hother MessageType.noConfusion
    | _ => exact Option.some_inj

/-- **No handler is called with the block after it has been freed**: the handler that is called now
is still going to free it. -/
theorem unused_step (h : Aired cfg A block s) (hc : s.threads i = c :: rest)
    (he : Effect cfg i c a s.shared sh' cs) : (signalEvents sh').Pairwise
      fun e e' ↦ e = .freed A.draw A.input → ∀ ms, e' ≠ .called ms A.draw A.input := by
  rw [he.signalEvents_eq, List.pairwise_append]
  refine ⟨h.unused, List.pairwise_of_forall_mem_list fun e hmem e' hmem' heq ms hcalled ↦ ?_,
    fun e hmem e' hmem' heq ms hcalled ↦ ?_⟩
  · -- one command does not do both
    obtain ⟨m, rfl, -⟩ := called_of_announced (hcalled ▸ hmem')
    obtain ⟨n, hn⟩ := freed_of_announced (heq ▸ hmem)
    cases hn
  · obtain ⟨m, rfl, hdraw, -⟩ := called_of_announced (hcalled ▸ hmem')
    have hpos : 0 < mentions ((dues cfg).cmd s.shared) s.threads A.draw :=
      mentions_pos (Good.mem_head hc) (congrArg some hdraw)
    have hfreed : .freed A.draw A.input ∈ heapEvents s.shared :=
      freed_mem_iff.2 (List.mem_filter.1 (heq ▸ hmem)).1
    have hcount := List.count_pos_iff.2 hfreed
    have hdue := h.due
    rw [Tally.total] at hdue
    omega

/-- **The step lemma.** -/
theorem step (h : Aired cfg A block s) {l : ι × Choice ι σ} {t : State ι σ}
    (hok : AtHead (HeardOnce cfg A) s l) (hstep : (fused cfg).step s l = some t) :
    Aired cfg A block t := by
  have hgood := h.toGood.step (hok.mono fun hheard ↦ hheard.1) hstep
  obtain ⟨c, rest, sh', cs, hc, he, rfl⟩ := effect_of_step hstep
  have hheard := (hok.cmd hc).2
  have hhanded := h.toHanded.step hc he hgood fun k f hk ha hpayload ↦ by
    rw [hk, ha, heardOnce, hpayload, bne_self_eq_false, Bool.false_or,
      List.contains_iff_mem] at hheard
    exact hheard
  exact ⟨hhanded, h.isSignal, h.loop_le_step hc he hheard, h.due_step hc he hheard,
    h.unused_step hc he⟩

theorem of_run {t : State ι σ} (h : Aired cfg A block s)
    (hr : Run (fused cfg).step (AtHead (HeardOnce cfg A)) s t) : Aired cfg A block t :=
  hr.invariant h fun ha hok hstep ↦ ha.step hok hstep

end Aired

/-! ### The first state -/

/-- User code is about to hand a block over to a broadcast, and to nothing else. -/
structure Broadcasts (cfg : Config ι σ) (i : ι) (f : Api ι σ) (A : SendArgs ι σ)
    (block : List UInt8) (s : State ι σ) : Prop where
  inUserCode : ∃ k rest, s.threads i = .userCode k :: rest
  isBroadcast : f.broadcasts?.isSome = true
  sends : .send A ∈ (callApi cfg i s.shared f).2
  isBlock : pbPayload A.input = true
  allocated : s.shared.heap A.input = some block
  sole : ∀ d, ¬Holds s A.input d

namespace Broadcasts

variable {f : Api ι σ} {k : UserCode ι σ}

/-- What a broadcast sends: one signal, with a new draw. -/
theorem sent (h : Broadcasts cfg i f A block s) :
    (callApi cfg i s.shared f).2 = [.send A] ∧ A.draw = s.shared.draws + 1 ∧ A.type = .signal := by
  have hsends := h.sends
  have hbroadcast := h.isBroadcast
  cases f with
  | targetSignal source major minor dest data extra =>
    obtain rfl := Cmd.send.inj (List.mem_singleton.1 hsends)
    exact ⟨rfl, rfl, rfl⟩
  | broadcastSignal major minor data =>
    obtain rfl := Cmd.send.inj (List.mem_singleton.1 hsends)
    exact ⟨rfl, rfl, rfl⟩
  | broadcastSignalWithContext source major minor data =>
    obtain rfl := Cmd.send.inj (List.mem_singleton.1 hsends)
    exact ⟨rfl, rfl, rfl⟩
  | _ => cases hbroadcast

/-- The signal is about to be sent. -/
theorem opens (h : Broadcasts cfg i f A block s) : Opens cfg i f A block s :=
  ⟨⟨h.inUserCode, ⟨[], h.sent.1, fun _ hx ↦ absurd hx List.not_mem_nil⟩, h.sent.2.1⟩, h.isBlock,
    h.allocated, h.sole⟩

/-- **The account is open when the signal has been broadcast.** -/
theorem aired (h : Broadcasts cfg i f A block s) (hgood : Good cfg s) (hnum : Numbered s)
    {t : State ι σ} (hstep : (fused cfg).step s (i, .api f) = some t) : Aired cfg A block t := by
  have hhanded := h.opens.handed hgood hnum hstep
  obtain ⟨k, rest, hc, rfl, he⟩ := h.opens.step_eq hstep
  have hpool := (sameMessages_callApi cfg i s.shared f).pool_eq
  refine ⟨hhanded, h.sent.2.2, fun j m subs hm hdraw ↦ ?_, ?_, ?_⟩
  · rcases h.opens.mem_cases hc hm with heq | ⟨o, heq⟩ | hbefore
    · cases heq
    · cases heq
    · dsimp only at hdraw
      rw [hpool] at hdraw
      exact absurd hdraw ((h.opens.draw_unused hgood hnum hbefore).2 m rfl)
  · have hcmd : ∀ j, ∀ x ∈ s.threads j, (dues cfg).cmd s.shared x ≠ some A.draw := by
      intro j x hx hxd
      obtain ⟨hsend, hmessage⟩ := h.opens.draw_unused hgood hnum hx
      rcases dues_eq_some hxd with ⟨b, hb, hdraw⟩ | ⟨m, hm, hdraw⟩
      · exact hsend b hb hdraw
      · exact hmessage m (Cmd.msg_of_frees hm) hdraw
    have hmsg : ∀ t, ∀ m ∈ s.shared.mq t, (dues cfg).msg s.shared m ≠ some A.draw :=
      fun t m hm hmd ↦ h.opens.draw_ne hnum (hgood.not_free_of_mq hm) (Option.some.inj hmd)
    have hone := h.opens.total_eq_one hgood hc he hcmd hmsg rfl fun o heq ↦ by cases heq
    rw [hone, h.opens.freed_eq_zero hnum]
  · have hfreed := List.count_eq_zero.1 (h.opens.freed_eq_zero hnum)
    refine List.pairwise_of_forall_mem_list fun e hmem e' _ heq ↦ absurd ?_ hfreed
    exact freed_mem_iff.2 (List.mem_filter.1 (heq ▸ hmem)).1

end Broadcasts

end Invariant

end Mblue
