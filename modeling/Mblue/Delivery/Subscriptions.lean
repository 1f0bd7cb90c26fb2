import Mblue.System.SignalEvents

/-!
# Who is subscribed

A subscription is a message to the bus, and counts from the moment the bus has handled it. `Listed`
says that the publish lists hold just these segments in this order, and that `bus_signal` relays a
signal to those that were subscribed when it took the signal.

All of this is said under a condition on the runs (`Delivering`): user code subscribes segments that
are bound to a task, and not the bus itself, and no queue is full for a signal.
-/

set_option linter.unusedSectionVars false

namespace Mblue

variable {ι σ : Type}

/-! ### The condition -/

/-- The segment is bound to a task, and is not the bus. -/
def Subscriber (cfg : Config ι σ) (ms : σ) : Prop := ms ≠ cfg.bus ∧ ∃ t, cfg.context ms = some t

section Condition

variable [DecidableEq ι] [DecidableEq σ]

/-- What delivery needs: a signal that is posted finds room in the queue, and a segment that user
code subscribes is bound to a task and is not the bus. -/
def delivers (cfg : Config ι σ) (c : Cmd ι σ) (a : Choice ι σ) (sh : Shared ι σ) : Bool :=
  match c, a with
  | .post t m, _ =>
    (sh.pool m).type != some .signal || decide ((sh.mq t).length < cfg.capacity t)
  | .userCode _, .api (.mblueSubscribe ms _) => ms != cfg.bus && (cfg.context ms).isSome
  | _, _ => true

/-- A signal that is posted finds room. -/
theorem room_of_delivers {cfg : Config ι σ} {c : Cmd ι σ} {a : Choice ι σ} {sh : Shared ι σ}
    (h : delivers cfg c a sh = true) (t : ι) (m : MsgId) (hpost : c = .post t m)
    (htype : (sh.pool m).type = some .signal) : (sh.mq t).length < cfg.capacity t := by
  rw [hpost, delivers, htype] at h
  simpa using h

/-- No reference counter wraps around, and signals are delivered. -/
def Delivering (cfg : Config ι σ) (i : ι) (c : Cmd ι σ) (a : Choice ι σ) (sh : Shared ι σ) : Prop :=
  NoWrap i c a sh ∧ delivers cfg c a sh = true

instance (cfg : Config ι σ) (i : ι) (c : Cmd ι σ) (a : Choice ι σ) (sh : Shared ι σ) :
    Decidable (Delivering cfg i c a sh) :=
  inferInstanceAs (Decidable (_ ∧ _))

end Condition

/-! ### The lists -/

/-- The segment an event subscribes to a number. -/
def Event.subscribes? (major : Major) : Event ι σ → Option σ
  | .subscribed ms m => if m = major then some ms else none
  | _ => none

/-- **The segments subscribed to a number** after these events, in the order of their
subscriptions. -/
def subscriptions (major : Major) (tr : List (Event ι σ)) : List σ :=
  tr.filterMap (Event.subscribes? major)

section Listed

variable [Fintype ι] [DecidableEq ι] [DecidableEq σ]

/-- The publish lists hold the subscribed segments, and every signal is relayed to those that were
subscribed. -/
structure Listed (cfg : Config ι σ) (s : State ι σ) : Prop extends Good cfg s where
  sending : ∀ k a, .send a ∈ s.threads k → a.type = .subscribe →
    ∃ ms, a.extra = some ms ∧ Subscriber cfg ms
  message : ∀ m, m ∉ s.shared.msgList → (s.shared.pool m).type = some .subscribe →
    ∃ ms, (s.shared.pool m).aux = .extra ms ∧ Subscriber cfg ms
  pending : ∀ k ms major, .busSubscribe ms major ∈ s.threads k → Subscriber cfg ms
  listed : ∀ major, ∀ ms ∈ s.shared.publishList major, Subscriber cfg ms
  looping : ∀ k m subs, .busSignalLoop m subs ∈ s.threads k → ∀ ms ∈ subs, Subscriber cfg ms
  list_eq : ∀ major, s.shared.publishList major = subscriptions major (signalEvents s.shared)
  relayed_eq : ∀ before d major subs after,
    signalEvents s.shared = before ++ .relayed d major subs :: after →
      subs = subscriptions major before

variable {cfg : Config ι σ} {s : State ι σ} {i : ι} {c : Cmd ι σ} {a : Choice ι σ}
  {rest cs : List (Cmd ι σ)} {sh sh' : Shared ι σ} {m : MsgId}

theorem publishList_release (sh : Shared ι σ) (m : MsgId) :
    (sh.release m).publishList = sh.publishList := by
  unfold Shared.release
  dsimp only
  split <;> rfl

theorem publishList_callApi (f : Api ι σ) :
    (callApi cfg i sh f).1.publishList = sh.publishList := by
  cases f with
  | targetSignal source major minor dest data extra =>
    unfold callApi
    dsimp only
    split <;> rfl
  | _ => rfl

/-- **Only `bus_subscribe` changes a publish list.** -/
theorem Effect.publishList_eq (h : Effect cfg i c a sh sh' cs)
    (hc : ∀ ms major, c ≠ .busSubscribe ms major) : sh'.publishList = sh.publishList := by
  cases h with
  | userCall => exact publishList_callApi _
  | sendDone halloc =>
    obtain ⟨_, -, rfl⟩ := alloc_eq_some halloc
    rfl
  | loopReplicated hctx halloc =>
    obtain ⟨_, -, rfl⟩ := alloc_eq_some halloc
    rfl
  | tpendTaken hsem =>
    rename_i t o d tail
    cases o <;> rfl
  | subscribed => exact absurd rfl (hc _ _)
  | subscribeReleased | released => exact publishList_release sh _
  | completed =>
    rename_i major e
    exact publishList_release sh e.msg
  | _ => rfl

/-- A list cut at an event of the second part, or of the first. -/
theorem split_append {l es before after : List (Event ι σ)} {e : Event ι σ}
    (h : l ++ es = before ++ e :: after) :
    (∃ after', l = before ++ e :: after') ∨ ∃ before', before = l ++ before' ∧
      es = before' ++ e :: after := by
  rcases List.append_eq_append_iff.1 h with ⟨l', hbefore, hes⟩ | ⟨l', hl, hafter⟩
  · exact .inr ⟨l', hbefore, hes⟩
  · cases l' with
    | nil => exact .inr ⟨[], by simpa using hl.symm, hafter.symm⟩
    | cons x l' =>
      obtain ⟨rfl, rfl⟩ := List.cons.inj hafter
      exact .inl ⟨l', hl⟩

/-- A free message is handed out. -/
theorem alloc_ne_none (h : Good cfg s) (hlist : s.shared.msgList ≠ []) (content : Message ι σ) :
    s.shared.alloc content ≠ none := by
  have hcount : s.shared.count = s.shared.msgList.length := h.sound.count_eq
  obtain ⟨m, free, heq⟩ := List.exists_cons_of_ne_nil hlist
  rw [heq, List.length_cons] at hcount
  unfold Shared.alloc
  rw [heq]
  dsimp only
  rw [if_neg (by omega)]
  exact Option.some_ne_none _

/-- In the first state every thread is in its user code. -/
theorem mem_initial (hc : c ∈ (initial cfg).threads i) : c = .userCode .app ∨ c = .templateProc := by
  unfold initial at hc
  dsimp only at hc
  split at hc
  · simpa using hc
  · exact .inl (List.mem_singleton.1 hc)

namespace Listed

/-- What user code sends subscribes a subscriber. -/
theorem sending_new (h : Effect cfg i c a sh sh' cs) (hok : delivers cfg c a sh = true)
    {b : SendArgs ι σ} (hb : .send b ∈ cs) (htype : b.type = .subscribe) :
    ∃ ms, b.extra = some ms ∧ Subscriber cfg ms := by
  rcases h.send_origin hb with ⟨k, f, rfl, rfl, hmem, -⟩ | ⟨-, -, hreturn⟩
  · cases f with
    | mblueSubscribe ms major =>
      obtain rfl := Cmd.send.inj (List.mem_singleton.1 hmem)
      rw [delivers, Bool.and_eq_true, bne_iff_ne, Option.isSome_iff_exists] at hok
      exact ⟨ms, rfl, hok⟩
    | mblueRemoteCall major minor input =>
      rw [callApi, List.mem_cons, List.mem_singleton] at hmem
      rcases hmem with heq | heq
      · obtain rfl := Cmd.send.inj heq
        cases htype
      · cases heq
    | _ =>
      obtain rfl := Cmd.send.inj (List.mem_singleton.1 hmem)
      cases htype
  · rw [hreturn] at htype
    cases htype

theorem message_step (h : Listed cfg s) (hc : s.threads i = c :: rest)
    (hmove : Move cfg i c s.shared sh' cs) :
    ∀ m, m ∉ sh'.msgList → (sh'.pool m).type = some .subscribe →
      ∃ ms, (sh'.pool m).aux = .extra ms ∧ Subscriber cfg ms := by
  intro m hm htype
  rcases hmove.origin hm with hfree | ⟨⟨b, rfl, heq⟩ | ⟨n, ms, subs, rfl, heq⟩, -⟩
  · have hheader := hmove.header_eq hfree
    rw [Message.type_eq hheader] at htype
    rw [Message.aux_eq hheader]
    exact h.message m hfree htype
  · rw [heq] at htype ⊢
    rw [type_initMessage, Option.some.injEq] at htype
    obtain ⟨ms, hextra, hms⟩ := h.sending i b (Good.mem_head hc) htype
    refine ⟨ms, ?_, hms⟩
    show b.aux = _
    rw [SendArgs.aux, htype, hextra]
    rfl
  · have hknows := h.knows i _ (Good.mem_head hc)
    have hsignal : (replicate (s.shared.pool n) ms).type = some .signal := hknows.2.1
    rw [heq, hsignal] at htype
    cases htype

/-- A pending subscription was taken from a message. -/
theorem pending_new (h : Listed cfg s) (hc : s.threads i = c :: rest)
    (he : Effect cfg i c a s.shared sh' cs) {ms : σ} {major : Major}
    (hm : .busSubscribe ms major ∈ cs) : Subscriber cfg ms := by
  cases he with
  | subscribeReleased haux hmajor =>
    rename_i m ms' major'
    cases List.mem_singleton.1 hm
    have hfree := h.not_free (Good.mem_head hc) rfl
    have hknows := h.knows i _ (Good.mem_head hc)
    obtain ⟨ms, hextra, hms⟩ := h.message m hfree hknows.2.1
    rw [haux] at hextra
    cases hextra
    exact hms
  | removed hmq hdst htype hhandler =>
    rw [← List.mem_singleton.1 hm] at hhandler
    cases handles_of_getHandler hhandler
  | userCall hmay =>
    rename_i k f
    rcases List.mem_append.1 hm with hm | hm
    · rcases cmd_of_callApi hm with ⟨b, heq⟩ | ⟨o, heq⟩ <;> cases heq
    · cases List.mem_singleton.1 hm
  | _ => simp at hm

theorem subscriptions_append (major : Major) (tr es : List (Event ι σ)) :
    subscriptions major (tr ++ es) = subscriptions major tr ++ subscriptions major es :=
  List.filterMap_append

/-- Only `bus_subscribe` subscribes. -/
theorem subscriptions_announced (hc : ∀ ms major, c ≠ .busSubscribe ms major) (major : Major) :
    subscriptions major (announced cfg i sh c a) = [] :=
  List.filterMap_eq_nil_iff.2 fun e he ↦ by
    cases announces_of_mem he with
    | subscribed => exact absurd rfl (hc _ _)
    | _ => rfl

theorem list_eq_step (h : Listed cfg s) (he : Effect cfg i c a s.shared sh' cs) (major : Major) :
    sh'.publishList major = subscriptions major (signalEvents sh') := by
  rw [he.signalEvents_eq, subscriptions_append, ← h.list_eq major]
  by_cases hc : ∃ ms m, c = .busSubscribe ms m
  · obtain ⟨ms, m, rfl⟩ := hc
    cases he
    show Function.update s.shared.publishList m (s.shared.publishList m ++ [ms]) major =
      _ ++ [Event.subscribed ms m].filterMap (Event.subscribes? major)
    by_cases hm : m = major
    · have hone : (Event.subscribed (ι := ι) ms m).subscribes? major = some ms := if_pos hm
      rw [List.filterMap_cons_some hone, hm, Function.update_self, List.filterMap_nil]
    · have hnone : (Event.subscribed (ι := ι) ms m).subscribes? major = none := if_neg hm
      rw [List.filterMap_cons_none hnone, Function.update_of_ne (Ne.symm hm), List.filterMap_nil,
        List.append_nil]
  · have hother : ∀ ms m, c ≠ .busSubscribe ms m := fun ms m heq ↦ hc ⟨ms, m, heq⟩
    rw [he.publishList_eq hother, subscriptions_announced hother, List.append_nil]

/-- An event of a command that says a signal is relayed is its only one. -/
theorem relayed_of_announced {before after : List (Event ι σ)} {d : ℕ} {major : Major}
    {subs : List σ} (h : announced cfg i sh c a = before ++ .relayed d major subs :: after) :
    before = [] ∧ subs = sh.publishList major := by
  have hmem : .relayed d major subs ∈ announced cfg i sh c a := by
    rw [h]
    exact List.mem_append_right _ List.mem_cons_self
  cases announces_of_mem hmem with
  | relayed hmajor =>
    rw [announced, hmajor, Option.elim_some] at h
    cases before with
    | nil => exact ⟨rfl, rfl⟩
    | cons e before => simp at h

theorem relayed_eq_step (h : Listed cfg s) (he : Effect cfg i c a s.shared sh' cs) :
    ∀ before d major subs after,
      signalEvents sh' = before ++ .relayed d major subs :: after →
        subs = subscriptions major before := by
  intro before d major subs after hcut
  rw [he.signalEvents_eq] at hcut
  rcases split_append hcut with ⟨after', hold⟩ | ⟨before', rfl, hnew⟩
  · exact h.relayed_eq before d major subs after' hold
  · obtain ⟨rfl, rfl⟩ := relayed_of_announced hnew
    rw [List.append_nil]
    exact h.list_eq major

/-- **The step lemma.** -/
theorem step (h : Listed cfg s) {l : ι × Choice ι σ} {t : State ι σ}
    (hok : AtHead (Delivering cfg) s l) (hstep : (fused cfg).step s l = some t) :
    Listed cfg t := by
  have hgood := h.toGood.step (hok.mono fun hdelivers ↦ hdelivers.1) hstep
  obtain ⟨i, a⟩ := l
  obtain ⟨c, rest, sh', cs, hc, he, rfl⟩ := effect_of_step hstep
  have hdelivers := (hok.cmd hc).2
  have hmove := move_of_effect he
  refine ⟨hgood, fun k b hb htype ↦ ?_, h.message_step hc hmove, fun k ms major hm ↦ ?_,
    fun major ms hms ↦ ?_, fun k m subs hm ms hms ↦ ?_, h.list_eq_step he, h.relayed_eq_step he⟩
  · rcases mem_expand_iff.1 hb with ⟨-, hb⟩ | hb
    · exact sending_new he hdelivers hb htype
    · exact h.sending k b (mem_of_mem_rest hc hb) htype
  · rcases mem_expand_iff.1 hm with ⟨-, hm⟩ | hm
    · exact h.pending_new hc he hm
    · exact h.pending k ms major (mem_of_mem_rest hc hm)
  · by_cases hsub : ∃ ms m, c = .busSubscribe ms m
    · obtain ⟨ms', m, rfl⟩ := hsub
      have hpending := h.pending i ms' m (Good.mem_head hc)
      cases he
      have hmem : ms ∈ Function.update s.shared.publishList m (s.shared.publishList m ++ [ms'])
        major := hms
      by_cases hm : major = m
      · rw [hm, Function.update_self, List.mem_append, List.mem_singleton] at hmem
        exact hmem.elim (h.listed m ms) fun heq ↦ heq ▸ hpending
      · rw [Function.update_of_ne hm] at hmem
        exact h.listed major ms hmem
    · rw [he.publishList_eq fun ms m heq ↦ hsub ⟨ms, m, heq⟩] at hms
      exact h.listed major ms hms
  · rcases mem_expand_iff.1 hm with ⟨-, hm⟩ | hm
    · rcases he.loop_origin hm with ⟨-, major, -, rfl⟩ | ⟨ms', rfl⟩
      · exact h.listed major ms hms
      · exact h.looping i m _ (Good.mem_head hc) ms (List.mem_cons_of_mem _ hms)
    · exact h.looping k m subs (mem_of_mem_rest hc hm) ms hms

theorem initial (cfg : Config ι σ) : Listed cfg (Mblue.initial cfg) where
  toGood := Good.initial cfg
  sending := fun k b hb _ ↦ by rcases mem_initial hb with h | h <;> cases h
  message := fun m hm _ ↦ absurd (List.mem_finRange m) hm
  pending := fun k ms major hm ↦ by rcases mem_initial hm with h | h <;> cases h
  listed := fun major ms hms ↦ absurd hms List.not_mem_nil
  looping := fun k m subs hm _ _ ↦ by rcases mem_initial hm with h | h <;> cases h
  list_eq := fun major ↦ rfl
  relayed_eq := fun before d major subs after hcut ↦ by
    have hmem : .relayed d major subs ∈ signalEvents (Mblue.initial cfg).shared := by
      rw [hcut]
      exact List.mem_append_right _ List.mem_cons_self
    exact absurd hmem List.not_mem_nil

/-- **Who is subscribed**, in every state reached. -/
theorem of_run (h : Run (fused cfg).step (AtHead (Delivering cfg)) (Mblue.initial cfg) s) :
    Listed cfg s :=
  h.invariant (initial cfg) fun ha hok hstep ↦ ha.step hok hstep

end Listed

end Listed

end Mblue
