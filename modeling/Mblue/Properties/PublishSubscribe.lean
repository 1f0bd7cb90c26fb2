import Mblue.Delivery.FanOut
import Mblue.Delivery.Order
import Mblue.Properties.BroadcastPayload
import Mblue.System.Drawn

/-!
# Publish and subscribe

What the system bus promises about broadcast signals, over every run in which no queue is full for a
signal and only segments that are bound to a task are subscribed (`Delivering`).

* The bus relays the broadcasts of a thread in their order, each at most once, under the number they
  were broadcast with and to the segments that were subscribed to it at that moment
  (`relayedInOrder_of_run`).
* It makes the replicas in the order of the signals and of their lists, each a copy of the signal
  (`replicated_of_run`).
* **All segments handle the broadcasts in one order**, the order in which the bus relays them, and a
  segment handles a signal as often as it was subscribed (`handled_of_run`).
* Where a message was free for every signal, none is lost: when all is quiet, every broadcast has
  been relayed and handled (`delivered_of_run`).
-/

set_option linter.unusedSectionVars false

namespace Mblue

variable {ι σ : Type} [Fintype ι] [DecidableEq ι] [DecidableEq σ]

/-! ### Reading the trace -/

/-- The draw of a signal that the bus has taken. -/
def Event.relayed? : Event ι σ → Option ℕ
  | .relayed d _ _ => some d
  | _ => none

/-- The signals the bus has relayed, in this order. -/
def relayedSignals (tr : List (Event ι σ)) : List ℕ := tr.filterMap Event.relayed?

/-- The draw of a signal the segment has started to handle. -/
def Event.handledBy? (ms : σ) : Event ι σ → Option ℕ
  | .handled ms' d => if ms' = ms then some d else none
  | _ => none

/-- The signals a segment has handled, in this order. -/
def handledSignals (ms : σ) (tr : List (Event ι σ)) : List ℕ := tr.filterMap (Event.handledBy? ms)

/-- A relayed signal, as often as the segment is on its list. -/
def Event.dueTo (ms : σ) : Event ι σ → List ℕ
  | .relayed d _ subs => List.replicate (subs.count ms) d
  | _ => []

/-- **The signals a segment is to handle**, in this order: each that the bus has relayed, as often
as the segment was subscribed to it. -/
def dueSignals (ms : σ) (tr : List (Event ι σ)) : List ℕ := tr.flatMap (Event.dueTo ms)

/-- The number was drawn for a broadcast. -/
def isBroadcast (tr : List (Event ι σ)) : ℕ → Bool := broadcastBy (fun _ ↦ true) tr

variable {cfg : Config ι σ} {s : State ι σ} {i k t : ι} {ms : σ} {c : Cmd ι σ} {a : Choice ι σ}
  {rest cs : List (Cmd ι σ)} {sh' : Shared ι σ}

/-! ### Order of relaying -/

/-- The bus segment handles no signal itself. -/
theorem handled_ne_bus (h : Run (fused cfg).step (AtHead NoWrap) (initial cfg) s) :
    ∀ ms d, .handled ms d ∈ signalEvents s.shared → ms ≠ cfg.bus := by
  refine h.invariant_of
    (P := fun s ↦ ∀ ms d, .handled ms d ∈ signalEvents s.shared → ms ≠ cfg.bus)
    (fun hr ↦ Good.of_run hr) (fun ms d hmem ↦ absurd hmem List.not_mem_nil)
    fun hgood ih _ hstep ms d hmem ↦ ?_
  obtain ⟨c, rest, sh', cs, hc, he, rfl⟩ := effect_of_step hstep
  rw [he.signalEvents_eq, List.mem_append] at hmem
  rcases hmem with hold | hnew
  · exact ih ms d hold
  · cases announces_of_mem hnew
    have hknows := hgood.knows _ _ (Good.mem_head hc)
    exact hknows.2.1

/-- What the first hop says has arrived is what the bus has relayed. -/
theorem started_bus (h : ∀ ms d, .handled ms d ∈ signalEvents s.shared → ms ≠ cfg.bus) :
    (signalEvents s.shared).filterMap (started cfg cfg.bus) =
      relayedSignals (signalEvents s.shared) :=
  List.filterMap_congr fun e he ↦ by
    cases e with
    | relayed d major subs => exact if_pos rfl
    | handled ms d => exact if_neg (h ms d he)
    | _ => rfl

/-- What the second hop says has arrived is what the segment has handled. -/
theorem started_segment (hms : ms ≠ cfg.bus) (tr : List (Event ι σ)) :
    tr.filterMap (started cfg ms) = handledSignals ms tr :=
  List.filterMap_congr fun e _ ↦ by
    cases e with
    | relayed d major subs => exact if_neg (Ne.symm hms)
    | _ => rfl

/-! ### The first hop -/

/-- The first hop holds only broadcasts, in their order. -/
theorem outward_sublist (h : Run (fused cfg).step (AtHead (Delivering cfg)) (initial cfg) s)
    (i : ι) : (outward cfg i s).Sublist (broadcasts (· == i) (signalEvents s.shared)) := by
  refine h.invariant_of
    (P := fun s ↦ (outward cfg i s).Sublist (broadcasts (· == i) (signalEvents s.shared)))
    (fun hr ↦ Sender.of_run hr) ?_ fun hsender ih hok hstep ↦ ?_
  · rw [outward, hop_initial]
    exact List.nil_sublist _
  · obtain ⟨c, rest, sh', cs, hc, he, rfl⟩ := effect_of_step hstep
    dsimp only
    rw [he.signalEvents_eq, broadcasts, List.filterMap_append]
    rcases hsender.outward_step hc he (hok.cmd hc).2 with heq | ⟨-, hsub⟩
    · rw [heq]
      exact ih.append_right _
    · exact (hsub.trans ih).trans (List.sublist_append_left _ _)

/-- What the bus has relayed of a thread's broadcasts is on the first hop. -/
theorem outward_of_relayed (h : Run (fused cfg).step (AtHead (Delivering cfg)) (initial cfg) s)
    (i : ι) : (relayedSignals (signalEvents s.shared)).filter
      (broadcastBy (· == i) (signalEvents s.shared)) <+: outward cfg i s := by
  have hbus := handled_ne_bus (h.mono fun hok ↦ hok.mono fun hdelivers ↦ hdelivers.1)
  rw [outward, hop, started_bus hbus, List.filter_append, List.filter_append, List.filter_append,
    List.append_assoc, List.append_assoc]
  exact List.prefix_append _ _

/-- What the bus says of the broadcasts it relays. -/
structure RelayedInOrder (s : State ι σ) : Prop where
  /-- The broadcasts of a thread are relayed in their order. -/
  inOrder : ∀ i, ((relayedSignals (signalEvents s.shared)).filter
    (broadcastBy (· == i) (signalEvents s.shared))).Sublist
      (broadcasts (· == i) (signalEvents s.shared))
  /-- Each is relayed at most once. -/
  once : ((relayedSignals (signalEvents s.shared)).filter
    (isBroadcast (signalEvents s.shared))).Nodup
  /-- It is relayed under the number it was broadcast with. -/
  major_eq : ∀ d major subs i major', .relayed d major subs ∈ signalEvents s.shared →
    .broadcast i d major' ∈ signalEvents s.shared → major = major'
  /-- It is relayed to the segments that were subscribed at that moment. -/
  subs_eq : ∀ before d major subs after,
    signalEvents s.shared = before ++ .relayed d major subs :: after →
      subs = subscriptions major before

theorem relayedInOrder_fused
    (h : Run (fused cfg).step (AtHead (Delivering cfg)) (initial cfg) s) : RelayedInOrder s := by
  have hsender := Sender.of_run h
  have hsub := fun i ↦ (outward_of_relayed h i).sublist.trans (outward_sublist h i)
  refine ⟨hsub, List.nodup_iff_count_le_one.2 fun d ↦ ?_,
    fun d major subs i major' hrelayed hmem ↦ hsender.relays d major subs hrelayed i major' hmem,
    hsender.relayed_eq⟩
  cases hd : isBroadcast (signalEvents s.shared) d with
  | false =>
    refine (List.count_eq_zero_of_not_mem fun hmem ↦ ?_).le.trans zero_le_one
    rw [(List.mem_filter.1 hmem).2] at hd
    cases hd
  | true =>
    -- the thread that has broadcast it
    obtain ⟨i, major, -, hmem⟩ := broadcastBy_iff.1 hd
    have hmine : broadcastBy (· == i) (signalEvents s.shared) d = true :=
      broadcastBy_iff.2 ⟨i, major, beq_self_eq_true i, hmem⟩
    have hnodup : (broadcasts (· == i) (signalEvents s.shared)).Nodup :=
      (hsender.growing _).imp ne_of_lt
    calc _ = (relayedSignals (signalEvents s.shared)).count d := List.count_filter hd
      _ = ((relayedSignals (signalEvents s.shared)).filter
            (broadcastBy (· == i) (signalEvents s.shared))).count d := (List.count_filter hmine).symm
      _ ≤ (broadcasts (· == i) (signalEvents s.shared)).count d := (hsub i).count_le d
      _ ≤ 1 := List.nodup_iff_count_le_one.1 hnodup d

/-! ### Replicas -/

/-- What the bus makes of the signals it relays. -/
structure ReplicatedInOrder (cfg : Config ι σ) (s : State ι σ) : Prop where
  /-- A replica is the signal under a new destination, with a counter of one. -/
  copy_eq : ∀ original copy, .replica original copy ∈ signalEvents s.shared →
    ∃ ms, copy = { original with ref := 1, dst := some ms }
  /-- The replicas come in the order of the signals and of their lists. -/
  inOrder : (signalEvents s.shared).filterMap Event.copy? <+:
    (signalEvents s.shared).flatMap Event.due
  /-- None is left out when the bus is done with a signal. -/
  complete : (∀ m subs, .busSignalLoop m subs ∉ s.threads cfg.busTask) →
    (signalEvents s.shared).filterMap Event.copy? = (signalEvents s.shared).flatMap Event.due

theorem copying_eq_nil_of_done {l : List (Cmd ι σ)} {sh : Shared ι σ}
    (h : ∀ m subs, .busSignalLoop m subs ∉ l) : l.flatMap (copying sh) = [] :=
  List.flatMap_eq_nil_iff.2 fun x hx ↦ by
    cases x with
    | busSignalLoop m subs => exact absurd hx (h m subs)
    | _ => rfl

theorem replicated_fused (h : Run (fused cfg).step (AtHead (Delivering cfg)) (initial cfg) s) :
    ReplicatedInOrder cfg s := by
  have hfanned := Fanned.of_run h
  refine ⟨hfanned.copy_eq, ?_, fun hdone ↦ ?_⟩
  · rw [← hfanned.due_eq]
    exact List.prefix_append _ _
  · rw [← hfanned.due_eq, copying_eq_nil_of_done hdone, List.append_nil]

/-! ### The second hop -/

/-- The draw of a replica, if it is for the segment. -/
def toSegment (ms : σ) (x : ℕ × σ) : Option ℕ := if x.2 = ms then some x.1 else none

/-- The replicas of one signal for the segment. -/
theorem toSegment_map (d : ℕ) (subs : List σ) :
    (subs.map fun ms' ↦ (d, ms')).filterMap (toSegment ms) = List.replicate (subs.count ms) d := by
  induction subs with
  | nil => rfl
  | cons ms' subs ih =>
    rw [List.map_cons]
    by_cases hms : ms' = ms
    · have hone : toSegment ms (d, ms') = some d := if_pos hms
      rw [List.filterMap_cons_some hone, ih, hms, List.count_cons_self, List.replicate_succ]
    · have hnone : toSegment ms (d, ms') = none := if_neg hms
      rw [List.filterMap_cons_none hnone, ih, List.count_cons_of_ne hms]

/-- The replicas of all signals for the segment. -/
theorem toSegment_due (tr : List (Event ι σ)) :
    (tr.flatMap Event.due).filterMap (toSegment ms) = dueSignals ms tr := by
  rw [List.filterMap_flatMap, dueSignals]
  refine List.flatMap_congr fun e _ ↦ ?_
  cases e with
  | relayed d major subs => exact toSegment_map d subs
  | _ => rfl

theorem toSegment_copy (tr : List (Event ι σ)) :
    (tr.filterMap Event.copy?).filterMap (toSegment ms) = tr.filterMap (Event.copies? ms) := by
  rw [List.filterMap_filterMap]
  refine List.filterMap_congr fun e _ ↦ ?_
  cases e with
  | replica original copy =>
    cases hdst : copy.dst with
    | none => simp [Event.copy?, Event.copies?, hdst]
    | some ms' => simp [Event.copy?, Event.copies?, hdst, toSegment]
  | _ => rfl

/-- **What is made for a segment**, and what the bus has still to make for it, is what it is due. -/
theorem Fanned.copies_append (h : Fanned cfg s) (ms : σ) :
    (signalEvents s.shared).filterMap (Event.copies? ms) ++
      ((s.threads cfg.busTask).flatMap (copying s.shared)).filterMap (toSegment ms) =
        dueSignals ms (signalEvents s.shared) := by
  rw [← toSegment_due, ← h.due_eq, List.filterMap_append, toSegment_copy]

/-- The second hop holds the replicas that were made. -/
theorem inward_eq (h : Run (fused cfg).step (AtHead (Delivering cfg)) (initial cfg) s)
    (hctx : cfg.context ms = some t) (hms : ms ≠ cfg.bus) : inward cfg ms t s =
      ((signalEvents s.shared).filterMap (Event.copies? ms)).filter
        (isBroadcast (signalEvents s.shared)) := by
  refine h.invariant_of (P := fun s ↦ inward cfg ms t s =
      ((signalEvents s.shared).filterMap (Event.copies? ms)).filter
        (isBroadcast (signalEvents s.shared)))
    (fun hr ↦ Sender.of_run hr) (hop_initial cfg ms t _ _) fun hsender ih hok hstep ↦ ?_
  obtain ⟨c, rest, sh', cs, hc, he, rfl⟩ := effect_of_step hstep
  rw [hsender.inward_step hc he (hok.cmd hc).2 hctx hms, ih]
  dsimp only
  have hevents := congrArg (List.filterMap (Event.copies? ms)) he.signalEvents_eq
  rw [hevents, List.filterMap_append, List.filter_append]
  refine congrArg (· ++ _) (List.filter_congr fun d hd ↦ ?_)
  obtain ⟨e, hmem, hcopy⟩ := List.mem_filterMap.1 hd
  refine (he.broadcastBy_eq (hsender.said_le e hmem d ?_)).symm
  cases e with
  | replica original copy =>
    exact congrArg some (Option.some.inj (Option.ite_none_right_eq_some.1 hcopy).2)
  | _ => cases hcopy

theorem handled_fused (h : Run (fused cfg).step (AtHead (Delivering cfg)) (initial cfg) s)
    (hms : Subscriber cfg ms) :
    (handledSignals ms (signalEvents s.shared)).filter (isBroadcast (signalEvents s.shared)) <+:
      (dueSignals ms (signalEvents s.shared)).filter (isBroadcast (signalEvents s.shared)) := by
  obtain ⟨hbus, t, hctx⟩ := hms
  have hhandled : (handledSignals ms (signalEvents s.shared)).filter
      (isBroadcast (signalEvents s.shared)) <+: inward cfg ms t s := by
    rw [inward, hop, started_segment hbus, List.filter_append, List.filter_append,
      List.filter_append, List.append_assoc, List.append_assoc]
    exact List.prefix_append _ _
  rw [inward_eq h hctx hbus] at hhandled
  refine hhandled.trans ?_
  rw [← (Fanned.of_run h).copies_append ms, List.filter_append]
  exact List.prefix_append _ _

/-! ### When all is quiet -/

/-- There is a free message for a signal that is sent. -/
def supplies (c : Cmd ι σ) (sh : Shared ι σ) : Bool :=
  match c with
  | .send b => b.type != .signal || !sh.msgList.isEmpty
  | _ => true

/-- Signals are delivered, and there is a free message for each. -/
def Supplied (cfg : Config ι σ) (i : ι) (c : Cmd ι σ) (a : Choice ι σ) (sh : Shared ι σ) : Prop :=
  Delivering cfg i c a sh ∧ supplies c sh = true

instance (cfg : Config ι σ) (i : ι) (c : Cmd ι σ) (a : Choice ι σ) (sh : Shared ι σ) :
    Decidable (Supplied cfg i c a sh) :=
  inferInstanceAs (Decidable (_ ∧ _))

/-- The command sends nothing, and works on no message. -/
def Cmd.isQuiet : Cmd ι σ → Bool
  | .send _ => false
  | c => c.msg?.isNone

/-- No message is being sent, queued or handled. -/
def Quiescent (s : State ι σ) : Prop :=
  ∀ j, s.shared.mq j = [] ∧ (s.threads j).all Cmd.isQuiet = true

instance (s : State ι σ) : Decidable (Quiescent s) := inferInstanceAs (Decidable (∀ _, _ ∧ _))

theorem Cmd.msg_of_isQuiet (h : c.isQuiet = true) : c.msg? = none ∧ ∀ b, c ≠ .send b := by
  cases c with
  | send b => cases h
  | _ => exact ⟨Option.isNone_iff_eq_none.1 h, fun b hb ↦ by cases hb⟩

/-- Where all is quiet, what is on a hop has arrived. -/
theorem Quiescent.hop_eq (h : Quiescent s) (cfg : Config ι σ) (ms : σ) (t j : ι) (p : ℕ → Bool) :
    hop cfg ms t j p s = ((signalEvents s.shared).filterMap (started cfg ms)).filter p := by
  have hquiet : ∀ j, ∀ x ∈ s.threads j, x.msg? = none ∧ ∀ b, x ≠ .send b :=
    fun j x hx ↦ Cmd.msg_of_isQuiet (List.all_eq_true.1 (h j).2 x hx)
  have hhandling : (s.threads t).filterMap (handling ms s.shared) = [] :=
    List.filterMap_eq_nil_iff.2 fun x hx ↦ by
      have hmsg := (hquiet t x hx).1
      cases x with
      | busSignal m | signalHandler ms' m => cases hmsg
      | _ => rfl
  have hposting : (s.threads j).filterMap (posting cfg ms s.shared) = [] :=
    List.filterMap_eq_nil_iff.2 fun x hx ↦ by
      obtain ⟨hmsg, hsend⟩ := hquiet j x hx
      cases x with
      | send b => exact absurd rfl (hsend b)
      | post u m => cases hmsg
      | _ => rfl
  rw [hop, hhandling, hposting, (h t).1, List.filterMap_nil, List.append_nil, List.append_nil,
    List.append_nil]

/-- With a message for every signal, the first hop holds all broadcasts. -/
theorem outward_eq (h : Run (fused cfg).step (AtHead (Supplied cfg)) (initial cfg) s) (i : ι) :
    outward cfg i s = broadcasts (· == i) (signalEvents s.shared) := by
  have hdelivering : ∀ {s : State ι σ} {l}, AtHead (Supplied cfg) s l →
      AtHead (Delivering cfg) s l := fun hok ↦ hok.mono fun hsupplied ↦ hsupplied.1
  refine h.invariant_of
    (P := fun s ↦ outward cfg i s = broadcasts (· == i) (signalEvents s.shared))
    (fun hr ↦ Sender.of_run (hr.mono hdelivering)) (hop_initial cfg _ _ _ _)
    fun hsender ih hok hstep ↦ ?_
  obtain ⟨c, rest, sh', cs, hc, he, rfl⟩ := effect_of_step hstep
  obtain ⟨hdelivers, hsupplies⟩ := hok.cmd hc
  dsimp only
  rw [he.signalEvents_eq, broadcasts, List.filterMap_append]
  rcases hsender.outward_step hc he hdelivers.2 with heq | ⟨⟨b, rfl, hnone, -, hp⟩, -⟩
  · rw [heq, ih]
    rfl
  · -- the send of a broadcast finds a message
    obtain ⟨i', major, -, hmem⟩ := broadcastBy_iff.1 hp
    have htype := (hsender.sends _ b (Good.mem_head hc) i' major hmem).2.2.1
    rw [supplies, htype] at hsupplies
    refine absurd hnone (alloc_ne_none hsender.toGood ?_ _)
    rintro hnil
    rw [hnil] at hsupplies
    cases hsupplies

/-- What has become of the broadcasts when all is quiet. -/
structure Delivered (cfg : Config ι σ) (s : State ι σ) : Prop where
  /-- The bus has relayed all broadcasts of a thread, in their order. -/
  relayed_eq : ∀ i, (relayedSignals (signalEvents s.shared)).filter
    (broadcastBy (· == i) (signalEvents s.shared)) = broadcasts (· == i) (signalEvents s.shared)
  /-- Each segment has handled all it was due, in order. -/
  handled_eq : ∀ ms, Subscriber cfg ms →
    (handledSignals ms (signalEvents s.shared)).filter (isBroadcast (signalEvents s.shared)) =
      (dueSignals ms (signalEvents s.shared)).filter (isBroadcast (signalEvents s.shared))

/-- When all is quiet, a segment has handled what it was due. -/
theorem Quiescent.handled_eq (hquiet : Quiescent s)
    (h : Run (fused cfg).step (AtHead (Delivering cfg)) (initial cfg) s) (hms : Subscriber cfg ms) :
    (handledSignals ms (signalEvents s.shared)).filter (isBroadcast (signalEvents s.shared)) =
      (dueSignals ms (signalEvents s.shared)).filter (isBroadcast (signalEvents s.shared)) := by
  obtain ⟨hbus, t, hctx⟩ := hms
  have hdone : ∀ m subs, .busSignalLoop m subs ∉ s.threads cfg.busTask := fun m subs hmem ↦ by
    have hquiet := List.all_eq_true.1 (hquiet cfg.busTask).2 _ hmem
    cases hquiet
  rw [← started_segment hbus, ← hquiet.hop_eq cfg ms t cfg.busTask,
    ← (Fanned.of_run h).copies_append ms, copying_eq_nil_of_done hdone, List.filterMap_nil,
    List.append_nil]
  exact inward_eq h hctx hbus

theorem delivered_fused (h : Run (fused cfg).step (AtHead (Supplied cfg)) (initial cfg) s)
    (hquiet : Quiescent s) : Delivered cfg s := by
  have hdelivering : Run (fused cfg).step (AtHead (Delivering cfg)) (initial cfg) s :=
    h.mono fun hok ↦ hok.mono fun hsupplied ↦ hsupplied.1
  refine ⟨fun i ↦ ?_, fun ms ↦ hquiet.handled_eq hdelivering⟩
  have hbus := handled_ne_bus (hdelivering.mono fun hok ↦ hok.mono fun hdelivers ↦ hdelivers.1)
  rw [← started_bus hbus, ← hquiet.hop_eq cfg cfg.bus cfg.busTask i, ← outward_eq h i, outward]

/-! ### What is in a broadcast -/

/-- What becomes of the contents of a broadcast. -/
structure ContentsKept (cfg : Config ι σ) (A : SendArgs ι σ) (s : State ι σ) : Prop where
  /-- Its replicas are the message that was sent, each with its destination and one reference. -/
  replica_eq : ∀ original copy, .replica original copy ∈ signalEvents s.shared →
    copy.draw = A.draw → ∃ ms, copy = { initMessage cfg A with ref := 1, dst := some ms }
  /-- Its handlers are called with the word that was broadcast. -/
  called_eq : ∀ ms p, .called ms A.draw p ∈ signalEvents s.shared → p = A.input

/-- What the trace says of the message of a draw. -/
structure Quoted (cfg : Config ι σ) (A : SendArgs ι σ) (s : State ι σ) : Prop
    extends Drawn cfg A s where
  original_eq : ∀ original copy, .replica original copy ∈ signalEvents s.shared →
    original.draw = A.draw → original.header = (initMessage cfg A).header
  payload_eq : ∀ ms p, .called ms A.draw p ∈ signalEvents s.shared → p = A.input

theorem Quoted.step {A : SendArgs ι σ} (h : Quoted cfg A s) (hc : s.threads i = c :: rest)
    (he : Effect cfg i c a s.shared sh' cs)
    (hgood : Good cfg ⟨sh', Function.update s.threads i (cs ++ rest)⟩) :
    Quoted cfg A ⟨sh', Function.update s.threads i (cs ++ rest)⟩ := by
  refine ⟨h.toDrawn.step hc he hgood, fun original copy hmem hdraw ↦ ?_, fun ms p hmem ↦ ?_⟩
  · rw [he.signalEvents_eq, List.mem_append] at hmem
    rcases hmem with hold | hnew
    · exact h.original_eq original copy hold hdraw
    · cases announces_of_mem hnew
      exact h.msg_eq _ (h.not_free (Good.mem_head hc) rfl) hdraw
  · rw [he.signalEvents_eq, List.mem_append] at hmem
    rcases hmem with hold | hnew
    · exact h.payload_eq ms p hold
    · obtain ⟨m, rfl, hdraw, rfl⟩ := called_of_announced hnew
      exact (h.message (h.not_free (Good.mem_head hc) rfl) hdraw).2.1

/-- The draw of the events of a signal's handler. -/
def Event.quotes? : Event ι σ → Option ℕ
  | .called _ d _ => some d
  | .replica original _ => some original.draw
  | _ => none

/-- What the trace quotes was drawn. -/
theorem quotes_le (h : Run (fused cfg).step (AtHead NoWrap) (initial cfg) s) :
    ∀ e ∈ signalEvents s.shared, ∀ d, e.quotes? = some d → d ≤ s.shared.draws := by
  refine h.invariant_of
    (P := fun s ↦ ∀ e ∈ signalEvents s.shared, ∀ d, e.quotes? = some d → d ≤ s.shared.draws)
    (fun hr ↦ And.intro (Good.of_run hr) (Numbered.of_run hr))
    (fun e hmem ↦ absurd hmem List.not_mem_nil) fun hI ih _ hstep e hmem d hd ↦ ?_
  obtain ⟨c, rest, sh', cs, hc, he, rfl⟩ := effect_of_step hstep
  have hle := he.numbers_le.1
  rw [he.signalEvents_eq, List.mem_append] at hmem
  rcases hmem with hold | hnew
  · exact (ih e hold d hd).trans hle
  · cases announces_of_mem hnew with
    | replica | called =>
      cases hd
      exact (hI.2.pool_le _ (hI.1.not_free (Good.mem_head hc) rfl)).trans hle
    | _ => cases hd

/-- A call that broadcasts is no step that the condition excludes. -/
theorem Draws.delivering {f : Api ι σ} {A : SendArgs ι σ} (h : Draws cfg i f A s)
    (hf : f.broadcasts?.isSome = true) : AtHead (Delivering cfg) s (i, .api f) := by
  refine AtHead.of_cmd fun c rest hc ↦ ?_
  obtain ⟨k, rest', hc'⟩ := h.inUserCode
  rw [hc', List.cons.injEq] at hc
  obtain ⟨rfl, rfl⟩ := hc
  refine ⟨fun m hm ↦ (by cases hm), ?_⟩
  cases f with
  | mblueSubscribe ms major => cases hf
  | _ => rfl

theorem contentsKept_fused {f : Api ι σ} {A : SendArgs ι σ} {s₁ t : State ι σ}
    (hs : Run (fused cfg).step (AtHead (Delivering cfg)) (initial cfg) s)
    (hcall : Draws cfg i f A s) (hf : f.broadcasts?.isSome = true)
    (hstep : (fused cfg).step s (i, .api f) = some s₁)
    (ht : Run (fused cfg).step (AtHead (Delivering cfg)) s₁ t) : ContentsKept cfg A t := by
  have hweak : ∀ {s : State ι σ} {l}, AtHead (Delivering cfg) s l → AtHead NoWrap s l :=
    fun hok ↦ hok.mono fun hdelivers ↦ hdelivers.1
  have hok := hcall.delivering hf
  have hfirst : Quoted cfg A s₁ := by
    have hdrawn := hcall.drawn (Good.of_run (hs.mono hweak)) (Numbered.of_run (hs.mono hweak)) hstep
    obtain ⟨k, rest, hc, rfl, he⟩ := hcall.step_eq hstep
    have hlt : s.shared.draws < A.draw := by
      have hdraw := hcall.draw_eq
      omega
    -- nothing in the trace has the new draw yet
    have hnew : ∀ e ∈ signalEvents (callApi cfg i s.shared f).1, e.quotes? ≠ some A.draw := by
      intro e hmem hquote
      rw [he.signalEvents_eq, List.mem_append] at hmem
      rcases hmem with hold | hsaid
      · exact absurd (quotes_le (hs.mono hweak) e hold _ hquote) (Nat.not_le_of_lt hlt)
      · cases announces_of_mem hsaid
        cases hquote
    exact ⟨hdrawn, fun original copy hmem hdraw ↦ absurd (congrArg some hdraw) (hnew _ hmem),
      fun ms p hmem ↦ absurd rfl (hnew _ hmem)⟩
  have hlast : Quoted cfg A t := ht.invariant (P := Quoted cfg A) hfirst fun ha hok hst ↦ by
    have hgood := ha.toGood.step (hweak hok) hst
    obtain ⟨c, rest, sh', cs, hc, he, rfl⟩ := effect_of_step hst
    exact ha.step hc he hgood
  refine ⟨fun original copy hmem hdraw ↦ ?_, hlast.payload_eq⟩
  obtain ⟨ms, rfl⟩ := (Fanned.of_run ((hs.tail hok hstep).trans ht)).copy_eq original copy hmem
  exact ⟨ms, congrArg (fun m : Message ι σ ↦ { m with ref := 1, dst := some ms })
    (hlast.original_eq original _ hmem hdraw)⟩

/-! ### The results -/

@[simp] theorem signalEvents_fuse (cfg : Config ι σ) (s : State ι σ) :
    signalEvents (fuse cfg s).shared = signalEvents s.shared := by
  rw [signalEvents, signalEvents, fuse_trace]

theorem Delivering.unseen : Unseen (Delivering cfg) := fun _ c a _ _ _ _ hok ↦
  ⟨hok.1, by cases c <;> cases a <;> exact hok.2⟩

theorem Supplied.unseen : Unseen (Supplied cfg) := fun _ c _ _ major e huses hok ↦
  ⟨Delivering.unseen major e huses hok.1, by cases c <;> exact hok.2⟩

/-- A run in which signals are delivered, as a run of the fused system. -/
theorem run_fused_of_delivering
    (h : Run (system cfg).step (AtHead (Delivering cfg)) (initial cfg) s) :
    Run (fused cfg).step (AtHead (Delivering cfg)) (initial cfg) (fuse cfg s) :=
  (Split.of_noWrap h Delivering.unseen And.left).2

/-- **The bus relays the broadcasts in order**, each at most once and to its subscribers. -/
theorem relayedInOrder_of_run
    (h : Run (system cfg).step (AtHead (Delivering cfg)) (initial cfg) s) : RelayedInOrder s := by
  have hfused := relayedInOrder_fused (run_fused_of_delivering h)
  exact {
    inOrder := by simpa using hfused.inOrder
    once := by simpa using hfused.once
    major_eq := by simpa using hfused.major_eq
    subs_eq := by simpa using hfused.subs_eq }

/-- **The bus makes a replica for each subscription**, in order. -/
theorem replicated_of_run (h : Run (system cfg).step (AtHead (Delivering cfg)) (initial cfg) s) :
    ReplicatedInOrder cfg s := by
  have hfused := replicated_fused (run_fused_of_delivering h)
  exact {
    copy_eq := by simpa using hfused.copy_eq
    inOrder := by simpa using hfused.inOrder
    complete := fun hdone ↦ by
      simpa using hfused.complete fun m subs hmem ↦ hdone m subs (mem_of_mem_fuse hmem) }

/-- **All segments handle the broadcasts in the order of the bus**, as often as they were
subscribed. -/
theorem handled_of_run (h : Run (system cfg).step (AtHead (Delivering cfg)) (initial cfg) s)
    (hms : Subscriber cfg ms) :
    (handledSignals ms (signalEvents s.shared)).filter (isBroadcast (signalEvents s.shared)) <+:
      (dueSignals ms (signalEvents s.shared)).filter (isBroadcast (signalEvents s.shared)) := by
  simpa using handled_fused (run_fused_of_delivering h) hms

theorem Quiescent.fuse (h : Quiescent s) (cfg : Config ι σ) : Quiescent (fuse cfg s) := fun j ↦
  ⟨fuse_mq cfg s ▸ (h j).1, List.all_eq_true.2 fun x hx ↦
    List.all_eq_true.1 (h j).2 x (mem_of_mem_fuse hx)⟩

/-- **No broadcast is lost**: when all is quiet, each has been handled by its subscribers. -/
theorem delivered_of_run (h : Run (system cfg).step (AtHead (Supplied cfg)) (initial cfg) s)
    (hquiet : Quiescent s) : Delivered cfg s := by
  have hrun := (Split.of_noWrap h Supplied.unseen fun hok ↦ hok.1.1).2
  have hfused := delivered_fused hrun (hquiet.fuse cfg)
  exact {
    relayed_eq := by simpa using hfused.relayed_eq
    handled_eq := by simpa using hfused.handled_eq }

theorem Draws.fuse {f : Api ι σ} {A : SendArgs ι σ} (h : Draws cfg i f A s) :
    Draws cfg i f A (fuse cfg s) where
  inUserCode := by
    obtain ⟨k, rest, hc⟩ := h.inUserCode
    exact ⟨k, rest, threads_fuse_of_ne hc fun _ _ heq ↦ by cases heq⟩
  sent := callApi_fuse (s := s) f ▸ h.sent
  draw_eq := by simpa using h.draw_eq

/-- **A broadcast arrives as it was sent.** -/
theorem contentsKept_of_run {f : Api ι σ} {A : SendArgs ι σ} {s₁ t : State ι σ}
    (hs : Run (system cfg).step (AtHead (Delivering cfg)) (initial cfg) s)
    (hcall : Draws cfg i f A s) (hf : f.broadcasts?.isSome = true)
    (hstep : (system cfg).step s (i, .api f) = some s₁)
    (ht : Run (system cfg).step (AtHead (Delivering cfg)) s₁ t) : ContentsKept cfg A t := by
  obtain ⟨hsplit, -, hfused⟩ := Split.of_api (hs.mono fun hok ↦ hok.mono And.left)
    hcall.inUserCode hstep
  have ht' := (Split.run ht hsplit Delivering.unseen fun hr ↦ hr.invariant (P := Good cfg)
    hsplit.good fun ha hok hst ↦ ha.step (hok.mono And.left) hst).2
  have hkept := contentsKept_fused (run_fused_of_delivering hs) hcall.fuse hf hfused ht'
  exact {
    replica_eq := by simpa using hkept.replica_eq
    called_eq := by simpa using hkept.called_eq }

/-! ### Two subscribers -/

/-- Steps of one thread. -/
def stepsOf (t : Fin 3) (as : List (Choice (Fin 3) (Fin 3))) :
    List (Fin 3 × Choice (Fin 3) (Fin 3)) := as.map (t, ·)

/-- Segments `1` and `2` subscribe, task `0` broadcasts twice, the bus takes everything in, and the
segments handle what they get. -/
def publishTwice : List (Fin 3 × Choice (Fin 3) (Fin 3)) :=
  [1, 2].flatMap (fun ms ↦
    stepsOf ms [.api (.mblueSubscribe ms broadcastMajor), .go, .go, .go, .go, .finish 0]) ++
  [5, 6].flatMap (fun w ↦
    stepsOf 0 [.api (.broadcastSignal broadcastMajor 0 w), .go, .go, .go, .go]) ++
  (0, .finish 0) :: List.replicate 30 (0, .go) ++ [1, 2, 2, 1].flatMap handleReplica

theorem relayedInOrder_twice : ∃ t, exec (system broadcastConfig).step
      (AtHead (Delivering broadcastConfig)) (initial broadcastConfig) publishTwice = some t ∧
    relayedSignals (signalEvents t.shared) = [3, 4] ∧ RelayedInOrder t :=
  exists_of_exec_eq rfl fun _ h ↦ relayedInOrder_of_run h

theorem replicated_twice : ∃ t, exec (system broadcastConfig).step
      (AtHead (Delivering broadcastConfig)) (initial broadcastConfig) publishTwice = some t ∧
    (signalEvents t.shared).filterMap Event.copy? = [(3, 1), (3, 2), (4, 1), (4, 2)] ∧
      ReplicatedInOrder broadcastConfig t :=
  exists_of_exec_eq rfl fun _ h ↦ replicated_of_run h

theorem handled_twice : ∃ t, exec (system broadcastConfig).step
      (AtHead (Delivering broadcastConfig)) (initial broadcastConfig) publishTwice = some t ∧
    handledSignals 2 (signalEvents t.shared) = [3, 4] ∧
      (handledSignals 2 (signalEvents t.shared)).filter (isBroadcast (signalEvents t.shared)) <+:
        (dueSignals 2 (signalEvents t.shared)).filter (isBroadcast (signalEvents t.shared)) :=
  exists_of_exec_eq rfl fun _ h ↦ handled_of_run h ⟨by decide, 2, rfl⟩

theorem delivered_twice : ∃ t, exec (system broadcastConfig).step
      (AtHead (Supplied broadcastConfig)) (initial broadcastConfig) publishTwice = some t ∧
    broadcasts (· == 0) (signalEvents t.shared) = [3, 4] ∧ Quiescent t ∧
      Delivered broadcastConfig t := by
  obtain ⟨t, ht, heq⟩ : ∃ t, exec (system broadcastConfig).step
      (AtHead (Supplied broadcastConfig)) (initial broadcastConfig) publishTwice = some t ∧
    (broadcasts (· == 0) (signalEvents t.shared), decide (Quiescent t)) = ([3, 4], true) :=
    Option.map_eq_some_iff.1 rfl
  obtain ⟨hbroadcasts, hquiet⟩ := Prod.mk.inj heq
  have hquiet := of_decide_eq_true hquiet
  exact ⟨t, ht, hbroadcasts, hquiet, delivered_of_run (run_exec ht) hquiet⟩

theorem draws_first : Draws broadcastConfig 0 (.broadcastSignal broadcastMajor 0 5)
    (drawnArgs (initial broadcastConfig).shared (.task 0) .signal broadcastMajor 0 none 5 none)
    (initial broadcastConfig) :=
  ⟨⟨_, _, rfl⟩, ⟨[], rfl, fun _ hx ↦ absurd hx List.not_mem_nil⟩, rfl⟩

theorem contentsKept_first : ∃ s₁, (system broadcastConfig).step (initial broadcastConfig)
      (0, .api (.broadcastSignal broadcastMajor 0 5)) = some s₁ ∧ ∃ t,
    exec (system broadcastConfig).step (AtHead (Delivering broadcastConfig)) s₁
      (subscribeFirst [1, 2] ++ List.replicate 8 (0, .go) ++ handleReplica 2) = some t ∧
    (signalEvents t.shared).filter (fun e ↦ e matches .called _ _ _) = [.called 2 1 5] ∧
      ContentsKept broadcastConfig (drawnArgs (initial broadcastConfig).shared (.task 0) .signal
        broadcastMajor 0 none 5 none) t :=
  ⟨_, rfl, exists_of_exec_eq rfl fun _ h ↦ contentsKept_of_run .refl draws_first rfl rfl h⟩

end Mblue
