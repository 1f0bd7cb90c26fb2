import Mblue.Ledger.Handed

/-!
# The accounts of a remote call

A remote call hands a payload block over to its request, and an asynchronous call a notifier too.
The request passes them through the queues of the bus and the service. The service frees the block;
the bus moves the notifier to the call's entry, calls it when the return has come, and frees it.

`Ledger` follows both with tallies: the block stands to the account of one message until it is
freed, the notifier to that of a message or an entry. Every step keeps the ledger (`Ledger.step`),
unless one of the exits is taken that forget what they hold (`unbroken`); a call opens it
(`HandsOver.ledger`).
-/

set_option linter.unusedSectionVars false

namespace Mblue

variable {ι σ : Type}

/-! ### Who holds what -/

/-- The functions that hand a block over for an answer. -/
def Api.isRemoteCall : Api ι σ → Bool
  | .mblueRemoteCall _ _ _ | .mblueRemoteCallAsync _ _ _ => true
  | _ => false

/-- The draws whose payload is still to be freed. -/
def payloads : Tally ι σ ℕ where
  cmd sh c :=
    match c with
    | .send a => some a.draw
    | c => c.frees?.map fun m ↦ (sh.pool m).draw
  msg sh m := some (sh.pool m).draw
  cmd_congr := by
    intro sh sh' c h _
    cases c with
    | userCode k =>
      cases k with
      | signal ms m | service ms m f args => exact draw_congr (h m rfl)
      | _ => rfl
    | post _ m | busCall m | busSignal m | busSignalLoop m _ | signalHandler _ m | ipcHandler _ m
    | finish m => exact draw_congr (h m rfl)
    | _ => rfl
  msg_congr := @draw_congr ι σ

theorem payloads_of_frees {sh : Shared ι σ} {c : Cmd ι σ} {m : MsgId} (h : c.frees? = some m) :
    payloads.cmd sh c = some (sh.pool m).draw := by
  have hmap : c.frees?.map (fun m ↦ (sh.pool m).draw) = some (sh.pool m).draw := by
    rw [h, Option.map_some]
  cases c with
  | send a => cases h
  | _ => exact hmap

/-- What stands for a payload sends it, or may still free it. -/
theorem payloads_eq_some {sh : Shared ι σ} {c : Cmd ι σ} {d : ℕ}
    (h : payloads.cmd sh c = some d) : (∃ a, c = .send a ∧ a.draw = d) ∨
      ∃ m, c.frees? = some m ∧ (sh.pool m).draw = d := by
  cases c with
  | send a => exact .inl ⟨a, rfl, Option.some.inj h⟩
  | _ => exact .inr (Option.map_eq_some_iff.1 h)

/-- The notifier of a request that is on its way to the bus. -/
def waiting [DecidableEq σ] (cfg : Config ι σ) (sh : Shared ι σ) (m : MsgId) : Option NotifierId :=
  if (sh.pool m).dst = some cfg.bus then (sh.pool m).aux.pn? else none

theorem waiting_congr [DecidableEq σ] {cfg : Config ι σ} {sh sh' : Shared ι σ} {m : MsgId}
    (h : (sh.pool m).SameBut (sh'.pool m)) : waiting cfg sh' m = waiting cfg sh m := by
  rw [waiting, waiting, h.2, Message.aux_eq h.1]

theorem waiting_eq_some [DecidableEq σ] {cfg : Config ι σ} {sh : Shared ι σ} {m : MsgId}
    {p : NotifierId} : waiting cfg sh m = some p ↔
      (sh.pool m).dst = some cfg.bus ∧ (sh.pool m).aux.pn? = some p := by
  rw [waiting]
  split
  · next hdst => exact (and_iff_right hdst).symm
  · next hdst => exact ⟨fun h ↦ (by cases h), fun h ↦ absurd h.1 hdst⟩

/-- The notifiers that have no entry yet, and those the bus is about to free. -/
def looseNotifiers [DecidableEq σ] (cfg : Config ι σ) : Tally ι σ NotifierId where
  cmd sh c :=
    match c with
    | .send a => a.pn
    | .post _ m | .busCall m => waiting cfg sh m
    | .freeNotifier p => some p
    | _ => none
  msg sh m := waiting cfg sh m
  cmd_congr := by
    intro sh sh' c h _
    cases c with
    | post _ m | busCall m => exact waiting_congr (h m rfl)
    | _ => rfl
  msg_congr := waiting_congr

/-- What stands for a loose notifier sends it, carries it to the bus, or frees it. -/
theorem looseNotifiers_eq_some [DecidableEq σ] {cfg : Config ι σ} {sh : Shared ι σ}
    {c : Cmd ι σ} {p : NotifierId} (h : (looseNotifiers cfg).cmd sh c = some p) :
    (∃ a, c = .send a ∧ a.pn = some p) ∨
      (∃ m, c.msg? = some m ∧ (sh.pool m).aux.pn? = some p) ∨ c = .freeNotifier p := by
  cases c with
  | send a => exact .inl ⟨a, rfl, h⟩
  | post t m | busCall m => exact .inr (.inl ⟨m, rfl, (waiting_eq_some.1 h).2⟩)
  | freeNotifier q => exact .inr (.inr (congrArg _ (Option.some.inj h)))
  | _ => cases h

/-- The notifier of the entry a command completes. -/
def Cmd.completes? : Cmd ι σ → Option NotifierId
  | .complete _ e => e.notifier
  | _ => none

/-- The notifier a command frees. -/
def Cmd.freesNotifier? : Cmd ι σ → Option NotifierId
  | .freeNotifier p => some p
  | _ => none

/-- How many entries carry a notifier. -/
def notifierEntries (sh : Shared ι σ) (p : NotifierId) : ℕ :=
  ∑ major, ((sh.callList major).filterMap (·.notifier)).count p

theorem notifierEntries_congr {sh sh' : Shared ι σ} (h : sh'.callList = sh.callList)
    (p : NotifierId) : notifierEntries sh' p = notifierEntries sh p := by
  rw [notifierEntries, h, notifierEntries]

theorem notifierEntries_link (sh : Shared ι σ) (major : Major) (e : PendingCall)
    (p : NotifierId) : notifierEntries (sh.link major e) p =
      notifierEntries sh p + ([e].filterMap (·.notifier)).count p := by
  have hsum := sum_update sh.callList (fun l ↦ (l.filterMap (·.notifier)).count p) major
    (sh.callList major ++ [e])
  rw [List.filterMap_append, List.count_append] at hsum
  show (∑ n, ((Function.update sh.callList major (sh.callList major ++ [e]) n).filterMap
    (·.notifier)).count p) = _
  rw [notifierEntries]
  omega

theorem notifierEntries_unlink {sh : Shared ι σ} {major : Major} {e : PendingCall}
    (he : e ∈ sh.callList major) (p : NotifierId) :
    notifierEntries (sh.unlink major e) p + ([e].filterMap (·.notifier)).count p =
      notifierEntries sh p := by
  have hsum := sum_update sh.callList (fun l ↦ (l.filterMap (·.notifier)).count p) major
    ((sh.callList major).erase e)
  have hperm := ((List.perm_cons_erase he).filterMap (·.notifier)).count_eq p
  have hsplit : ((e :: (sh.callList major).erase e).filterMap (·.notifier)).count p =
      ([e].filterMap (·.notifier)).count p +
        (((sh.callList major).erase e).filterMap (·.notifier)).count p := by
    rw [← List.count_append, ← List.filterMap_append]
    rfl
  show (∑ n, ((Function.update sh.callList major ((sh.callList major).erase e) n).filterMap
    (·.notifier)).count p) + _ = _
  rw [notifierEntries]
  omega

theorem notifierEntries_pos {sh : Shared ι σ} {major : Major} {e : PendingCall} {p : NotifierId}
    (he : e ∈ sh.callList major) (hp : e.notifier = some p) : 0 < notifierEntries sh p := by
  have hle := le_sum sh.callList (fun l ↦ (l.filterMap (·.notifier)).count p) major
  have hpos := List.count_pos_iff.2 (List.mem_filterMap.2 ⟨e, he, hp⟩)
  exact hpos.trans_le hle

/-- The notifier an event says was called. -/
def Event.notifies? : Event ι σ → Option NotifierId
  | .notified p _ => some p
  | _ => none

/-! ### What breaks a call off -/

section Unbroken

variable [DecidableEq ι] [DecidableEq σ]

/-- `pb_decode_delimited` fails on the header of a request. -/
def headerFails (cfg : Config ι σ) (ms : σ) (m : MsgId) (sh : Shared ι σ) : Bool :=
  match payloadBlock (sh.pool m) sh with
  | some payload =>
    match readRequest payload (cfg.findIpcHandlerFromService ms (sh.pool m).minor) with
    | .ok .headerFailed => true
    | _ => false
  | none => false

/-- What must not happen to a call: its request finds no free message or a full queue, the bus has
no segment with a task for it or no memory for its entry, the segment of an asynchronous call is the
bus itself, the service cannot decode its header, or its block is passed on a second time before it
is freed. -/
def unbroken (cfg : Config ι σ) (A : SendArgs ι σ) (c : Cmd ι σ) (a : Choice ι σ)
    (sh : Shared ι σ) : Bool :=
  match c, a with
  | .send args, _ => args.draw != A.draw || (sh.alloc (initMessage cfg args)).isSome
  | .post t m, _ => (sh.pool m).draw != A.draw || decide ((sh.mq t).length < cfg.capacity t)
  | .busCall m, .fail => (sh.pool m).draw != A.draw
  | .busCall m, _ => (sh.pool m).draw != A.draw ||
    ((sh.pool m).major.bind cfg.node).any fun ms ↦
      (A.pn.isNone || ms != cfg.bus) && (cfg.context ms).isSome
  | .ipcHandler ms m, _ => (sh.pool m).draw != A.draw || !headerFails cfg ms m sh
  | .userCode _, .api f => f.payload? != some A.input ||
    sh.trace.contains (.freed A.draw A.input)
  | _, _ => true

/-- No reference counter wraps around, and nothing breaks the call off. -/
def Unbroken (cfg : Config ι σ) (A : SendArgs ι σ) (i : ι) (c : Cmd ι σ) (a : Choice ι σ)
    (sh : Shared ι σ) : Prop :=
  NoWrap i c a sh ∧ unbroken cfg A c a sh = true

instance (cfg : Config ι σ) (A : SendArgs ι σ) (i : ι) (c : Cmd ι σ) (a : Choice ι σ)
    (sh : Shared ι σ) : Decidable (Unbroken cfg A i c a sh) :=
  inferInstanceAs (Decidable (_ ∧ _))

end Unbroken

/-! ### The invariant -/

section Invariant

variable [Fintype ι] [DecidableEq ι] [DecidableEq σ]

/-- What the proof needs of the arguments of a call: they are those of a request to the bus, with a
block, and a notifier only if the call is asynchronous. -/
structure GivesBlock (A : SendArgs ι σ) : Prop where
  isCall : A.type.isCall = true
  dst : A.dst = none
  pbPayload : pbPayload A.input = true
  draw_pos : 0 < A.draw
  async : ∀ p, A.pn = some p → A.type = .asyncCall

/-- The accounts of a call: who stands for its block and its notifier. -/
structure Ledger (cfg : Config ι σ) (A : SendArgs ι σ) (block : List UInt8) (s : State ι σ) :
    Prop extends Good cfg s where
  gives : GivesBlock A
  draw_le : A.draw ≤ s.shared.draws
  pn_lt : ∀ p, A.pn = some p → p < s.shared.notifiers
  send_eq : ∀ i a, .send a ∈ s.threads i → a.draw = A.draw → a = A
  send_pn : ∀ i a p, .send a ∈ s.threads i → A.pn = some p → a.pn = some p → a.draw = A.draw
  msg_eq : ∀ m, m ∉ s.shared.msgList → (s.shared.pool m).draw = A.draw →
    (s.shared.pool m).header = (initMessage cfg A).header
  msg_pn : ∀ m p, m ∉ s.shared.msgList → A.pn = some p → (s.shared.pool m).aux.pn? = some p →
    (s.shared.pool m).draw = A.draw
  payload : payloads.total s A.draw + (heapEvents s.shared).count (.freed A.draw A.input) = 1
  sole : .freed A.draw A.input ∉ heapEvents s.shared → ∀ d, Holds s A.input d → d = A.draw
  live : .freed A.draw A.input ∉ heapEvents s.shared → s.shared.heap A.input = some block
  notifier : ∀ p, A.pn = some p → (looseNotifiers cfg).total s p + notifierEntries s.shared p +
    (heapEvents s.shared).count (.notifierFreed p) = 1 + mentions Cmd.completes? s.threads p
  notified : ∀ p, A.pn = some p → ((heapEvents s.shared).filterMap Event.notifies?).count p =
    mentions Cmd.freesNotifier? s.threads p + (heapEvents s.shared).count (.notifierFreed p)
  unused : ∀ p, A.pn = some p → (heapEvents s.shared).Pairwise
    fun e e' ↦ e = .notifierFreed p → e'.notifies? ≠ some p

variable {cfg : Config ι σ} {A : SendArgs ι σ} {block : List UInt8} {s : State ι σ} {i : ι}
  {c : Cmd ι σ} {a : Choice ι σ} {rest cs : List (Cmd ι σ)} {sh' : Shared ι σ} {m : MsgId}

namespace Ledger

/-- The executed command's message is in use. -/
theorem in_use (h : Ledger cfg A block s) (hc : s.threads i = c :: rest) (hm : c.msg? = some m) :
    m ∉ s.shared.msgList := h.not_free (Good.mem_head hc) hm

/-- The call has handed its block over to its request. -/
theorem handed (h : Ledger cfg A block s) : Handed cfg A block s :=
  ⟨⟨h.toGood, h.gives.draw_pos, h.draw_le, h.send_eq, h.msg_eq⟩, h.gives.pbPayload, h.sole, h.live⟩

/-- The request of the call is a request, with the call's payload. -/
theorem request (h : Ledger cfg A block s) (hm : m ∉ s.shared.msgList)
    (hdraw : (s.shared.pool m).draw = A.draw) :
    (s.shared.pool m).isCall = true ∧ (s.shared.pool m).smartPayload = A.input ∧
      (s.shared.pool m).type = some A.type ∧ (s.shared.pool m).aux = A.aux := by
  obtain ⟨htype, hpayload, haux⟩ := h.handed.message hm hdraw
  exact ⟨(Message.isCall_of_type htype).trans h.gives.isCall, hpayload, htype, haux⟩

/-- What is no request is no message of the call. -/
theorem draw_ne (h : Ledger cfg A block s) (hm : m ∉ s.shared.msgList)
    (hcall : (s.shared.pool m).isCall ≠ true) : (s.shared.pool m).draw ≠ A.draw :=
  fun hdraw ↦ hcall (h.request hm hdraw).1

theorem draw_ne_of_type (h : Ledger cfg A block s) (hm : m ∉ s.shared.msgList)
    {type : MessageType} (htype : (s.shared.pool m).type = some type)
    (hcall : type.isCall = false) : (s.shared.pool m).draw ≠ A.draw :=
  h.draw_ne hm fun heq ↦ by
    rw [Message.isCall_of_type htype, hcall] at heq
    exact absurd heq Bool.false_ne_true

/-- What user code or an answer sends is not sent for the call. -/
theorem new_send (h : Ledger cfg A block s) (he : Effect cfg i c a s.shared sh' cs)
    {b : SendArgs ι σ} (hb : .send b ∈ cs) :
    b.draw ≠ A.draw ∧ ∀ p, A.pn = some p → b.pn ≠ some p := by
  refine ⟨h.handed.new_send he hb, fun p hp hbp ↦ ?_⟩
  rcases he.send_origin hb with ⟨k, f, -, -, hmem, -⟩ | ⟨-, hpn, -⟩
  · obtain ⟨-, -, hlt, -⟩ := send_of_callApi hmem
    obtain ⟨rfl, -⟩ := hlt p hbp
    exact absurd (h.pn_lt _ hp) (Nat.lt_irrefl _)
  · rw [hpn] at hbp
    cases hbp

/-! ### One step: who belongs to the call -/

theorem send_pn_step (h : Ledger cfg A block s) (hc : s.threads i = c :: rest)
    (he : Effect cfg i c a s.shared sh' cs) :
    ∀ j b p, .send b ∈ Function.update s.threads i (cs ++ rest) j → A.pn = some p →
      b.pn = some p → b.draw = A.draw := by
  intro j b p hb hp hbp
  rcases mem_expand_iff.1 hb with ⟨-, hb⟩ | hb
  · exact absurd hbp ((h.new_send he hb).2 p hp)
  · exact h.send_pn j b p (mem_of_mem_rest hc hb) hp hbp

theorem msg_pn_step (h : Ledger cfg A block s) (hc : s.threads i = c :: rest)
    (hmove : Move cfg i c s.shared sh' cs) :
    ∀ m p, m ∉ sh'.msgList → A.pn = some p → (sh'.pool m).aux.pn? = some p →
      (sh'.pool m).draw = A.draw := by
  intro m p hm hp haux
  rcases hmove.origin hm with hfree | ⟨⟨b, rfl, heq⟩ | ⟨n, ms, subs, rfl, heq⟩, -⟩
  · have hheader := hmove.header_eq hfree
    rw [Message.draw_eq hheader]
    exact h.msg_pn m p hfree hp (Message.aux_eq hheader ▸ haux)
  · rw [heq] at haux ⊢
    exact h.send_pn i b p (Good.mem_head hc) hp (pn_initMessage haux)
  · rw [heq] at haux ⊢
    exact h.msg_pn n p (h.in_use hc rfl) hp haux

/-- The bus finds a segment for the call's request. -/
theorem draw_ne_of_busCall {sh : Shared ι σ} (hok : unbroken cfg A (.busCall m) a sh = true)
    (hbad : ∀ major ms, (sh.pool m).major = some major → cfg.node major = some ms →
      A.pn ≠ none ∧ ms = cfg.bus ∨ cfg.context ms = none) : (sh.pool m).draw ≠ A.draw := by
  intro hdraw
  have hany : ((sh.pool m).major.bind cfg.node).any
      (fun ms ↦ (A.pn.isNone || ms != cfg.bus) && (cfg.context ms).isSome) = true := by
    cases a with
    | fail =>
      rw [unbroken, hdraw, bne_self_eq_false] at hok
      cases hok
    | _ =>
      have hor : ((sh.pool m).draw != A.draw || ((sh.pool m).major.bind cfg.node).any
          fun ms ↦ (A.pn.isNone || ms != cfg.bus) && (cfg.context ms).isSome) = true := hok
      rwa [hdraw, bne_self_eq_false, Bool.false_or] at hor
  obtain ⟨ms, hms, hgood⟩ := (Option.any_eq_true _ _).1 hany
  obtain ⟨major, hmajor, hnode⟩ := Option.bind_eq_some_iff.1 hms
  rw [Bool.and_eq_true, Bool.or_eq_true, Option.isNone_iff_eq_none, bne_iff_ne] at hgood
  rcases hbad major ms hmajor hnode with ⟨hpn, hbus⟩ | hctx
  · exact hgood.1.elim hpn fun hne ↦ hne hbus
  · rw [hctx] at hgood
    cases hgood.2

end Ledger

end Invariant

end Mblue
