import Mblue.System.Reduction
import Mblue.System.Tokens

/-!
# Who owes a reply

`bus_call` links an entry for a request, and the entry goes away when a return with the same numbers
comes back to the bus. In between something stands for the return to come: the request on its way to
the service or in its handler, the return that is sent, and the match that is being completed. The
tally `replies` counts them by major and sequence number.

`Replied` says that there is one for each entry, and that a request which finds the bus itself under
its number goes round for ever. It holds as long as no request or return is lost (`Answerable`): a
return that other user code sends, or one that finds no entry, does not spoil it.
-/

set_option linter.unusedSectionVars false

namespace Mblue

variable {ι σ : Type} [Fintype ι] [DecidableEq ι] [DecidableEq σ]

/-! ### The tally -/

/-- What `bus_call_return` finds an entry by. -/
structure CallNumber where
  major : Major
  seq : Uint16
  deriving DecidableEq, Repr

/-- The request gets an entry in a call list. -/
def expectsReturn (msg : Message ι σ) (m : MsgId) : Bool :=
  msg.isCall && (pendingCall msg m).isSome

/-- The numbers of the return a message stands for: it is a return, or a request that `bus_call` has
passed on. -/
def owes (cfg : Config ι σ) (sh : Shared ι σ) (m : MsgId) : Option CallNumber :=
  if (expectsReturn (sh.pool m) m && (sh.pool m).dst != some cfg.bus) ||
      (sh.pool m).type == some .callReturn then
    (sh.pool m).major.map fun major ↦ ⟨major, (sh.pool m).seq⟩
  else none

theorem owes_congr {cfg : Config ι σ} {sh sh' : Shared ι σ} {m : MsgId}
    (h : (sh.pool m).SameBut (sh'.pool m)) : owes cfg sh' m = owes cfg sh m := by
  rw [owes, owes, expectsReturn, expectsReturn, Message.isCall_eq h.1,
    Message.pendingCall_eq h.1, h.2, Message.type_eq h.1, Message.major_eq h.1,
    Message.seq_eq h.1]

/-- What stands for a return to come. -/
def replies (cfg : Config ι σ) : Tally ι σ CallNumber where
  cmd sh c :=
    match c with
    | .send a => if a.type = .callReturn then some ⟨a.major, a.seq⟩ else none
    | .post _ m | .ipcHandler _ m | .userCode (.service _ m _ _) | .busCallReturn m =>
      owes cfg sh m
    | .complete major e => some ⟨major, (sh.pool e.msg).seq⟩
    | _ => none
  msg sh m := owes cfg sh m
  cmd_congr := by
    intro sh sh' c h hentry
    cases c with
    | userCode k =>
      cases k with
      | service ms m f args => exact owes_congr (h m rfl)
      | _ => rfl
    | post _ m | ipcHandler _ m | busCallReturn m => exact owes_congr (h m rfl)
    | complete major e =>
      exact congrArg (fun seq ↦ some (CallNumber.mk major seq)) (Message.seq_eq (hentry major e rfl))
    | _ => rfl
  msg_congr := owes_congr

/-- The entries that wait for a return with these numbers. -/
def entriesAt (sh : Shared ι σ) (k : CallNumber) : ℕ :=
  (sh.callList k.major).countP fun e ↦ (sh.pool e.msg).seq == k.seq

theorem entriesAt_congr {sh sh' : Shared ι σ} {k : CallNumber}
    (hlist : sh'.callList k.major = sh.callList k.major)
    (hseq : ∀ e ∈ sh.callList k.major, (sh'.pool e.msg).seq = (sh.pool e.msg).seq) :
    entriesAt sh' k = entriesAt sh k := by
  rw [entriesAt, hlist, entriesAt]
  refine List.countP_congr fun e he ↦ ?_
  rw [hseq e he]

theorem entriesAt_pos {sh : Shared ι σ} {major : Major} {e : PendingCall}
    (he : e ∈ sh.callList major) : 0 < entriesAt sh ⟨major, (sh.pool e.msg).seq⟩ :=
  List.countP_pos_iff.2 ⟨e, he, beq_self_eq_true _⟩

/-! ### The condition -/

/-- The message is a request on its way to the bus that is to get an entry: a task waits for its
return, or it has an entry already and goes round. -/
def requested (cfg : Config ι σ) (sh : Shared ι σ) (m : MsgId) : Bool :=
  expectsReturn (sh.pool m) m && (sh.pool m).dst == some cfg.bus &&
    ((sh.pool m).type == some .syncCall && (sh.pool m).src != .null ||
      (sh.pool m).major.any fun major ↦ entriesAt sh ⟨major, (sh.pool m).seq⟩ != 0)

/-- An entry waits for the return the message stands for. -/
def awaited (cfg : Config ι σ) (sh : Shared ι σ) (m : MsgId) : Bool :=
  (owes cfg sh m).any fun k ↦ entriesAt sh k != 0

/-- `bus_call` finds a segment that is bound to a task. -/
def findsSegment (cfg : Config ι σ) (sh : Shared ι σ) (m : MsgId) : Bool :=
  ((sh.pool m).major.bind cfg.node).any fun ms ↦ (cfg.context ms).isSome

theorem findsSegment_eq_false {cfg : Config ι σ} {sh : Shared ι σ} {m : MsgId} {major : Major}
    (hmajor : (sh.pool m).major = some major)
    (hnode : ∀ ms, cfg.node major = some ms → cfg.context ms = none) :
    findsSegment cfg sh m = false := by
  rw [findsSegment, hmajor, Option.bind_some]
  cases hms : cfg.node major with
  | none => rfl
  | some ms => rw [Option.any_some, hnode ms hms, Option.isSome_none]

/-- `default_ipc_handler` decodes the header and finds a handler. -/
def findsHandler (cfg : Config ι σ) (ms : σ) (sh : Shared ι σ) (m : MsgId) : Bool :=
  match payloadBlock (sh.pool m) sh with
  | some payload =>
    match readRequest payload (cfg.findIpcHandlerFromService ms (sh.pool m).minor) with
    | .ok (.parsed _) => true
    | _ => false
  | none => false

/-- What must not happen: a return that an entry waits for finds no free message, a request that is
waited for or such a return finds its queue full, `bus_call` finds no segment or no memory for the
entry of such a request, the service cannot decode the request or has no handler for it. -/
def answerable (cfg : Config ι σ) (c : Cmd ι σ) (a : Choice ι σ) (sh : Shared ι σ) : Bool :=
  match c, a with
  | .send args, _ => args.type != .callReturn || entriesAt sh ⟨args.major, args.seq⟩ == 0 ||
      (sh.alloc (initMessage cfg args)).isSome
  | .post t m, _ => !(requested cfg sh m || awaited cfg sh m) ||
      decide ((sh.mq t).length < cfg.capacity t)
  | .busCall m, .fail => !requested cfg sh m
  | .busCall m, _ => !requested cfg sh m || findsSegment cfg sh m
  | .ipcHandler ms m, _ => !awaited cfg sh m || findsHandler cfg ms sh m
  | _, _ => true

theorem findsSegment_of_answerable {cfg : Config ι σ} {sh : Shared ι σ} {m : MsgId}
    {a : Choice ι σ} (h : answerable cfg (.busCall m) a sh = true)
    (hrequested : requested cfg sh m = true) : findsSegment cfg sh m = true := by
  cases a with
  | fail =>
    rw [answerable, hrequested] at h
    cases h
  | _ =>
    have hor : (!requested cfg sh m || findsSegment cfg sh m) = true := h
    rwa [hrequested, Bool.not_true, Bool.false_or] at hor

/-- No reference counter wraps around, and no request or return is lost. -/
def Answerable (cfg : Config ι σ) (i : ι) (c : Cmd ι σ) (a : Choice ι σ) (sh : Shared ι σ) : Prop :=
  NoWrap i c a sh ∧ answerable cfg c a sh = true

instance (cfg : Config ι σ) (i : ι) (c : Cmd ι σ) (a : Choice ι σ) (sh : Shared ι σ) :
    Decidable (Answerable cfg i c a sh) :=
  inferInstanceAs (Decidable (_ ∧ _))

/-! ### The invariant -/

/-- The message stands in the bus's queue, is about to be put there, or `bus_call` has it. -/
inductive Circulates (s : State ι σ) (m : MsgId) : Prop
  | queued {t} (h : m ∈ s.shared.mq t)
  | posted {i t} (h : .post t m ∈ s.threads i)
  | handled {i} (h : .busCall m ∈ s.threads i)

/-- Each entry has a return to come, or its request goes round. -/
structure Replied (cfg : Config ι σ) (s : State ι σ) : Prop extends Good cfg s where
  covered : ∀ k : CallNumber, cfg.node k.major ≠ some cfg.bus →
    entriesAt s.shared k ≤ (replies cfg).total s k
  circulating : ∀ major, cfg.node major = some cfg.bus → ∀ e ∈ s.shared.callList major,
    (s.shared.pool e.msg).dst = some cfg.bus ∧ Circulates s e.msg

/-! ### The entries of one step -/

section Entries

variable {cfg : Config ι σ} {s : State ι σ} {i : ι} {c : Cmd ι σ} {a : Choice ι σ}
  {rest cs : List (Cmd ι σ)} {sh sh' : Shared ι σ} {k : CallNumber} {major : Major}
  {e : PendingCall}

theorem entriesAt_link (sh : Shared ι σ) (major : Major) (e : PendingCall) (k : CallNumber) :
    entriesAt (sh.link major e) k =
      entriesAt sh k + [CallNumber.mk major (sh.pool e.msg).seq].count k := by
  obtain ⟨m, q⟩ := k
  unfold entriesAt Shared.link
  dsimp only
  by_cases hm : m = major
  · subst hm
    rw [Function.update_self, List.countP_append, List.countP_singleton, List.count_singleton]
    congr 1
    exact if_congr (by rw [beq_iff_eq, beq_iff_eq, CallNumber.mk.injEq, eq_self, true_and]) rfl rfl
  · have hne : CallNumber.mk major (sh.pool e.msg).seq ≠ ⟨m, q⟩ := fun heq ↦
      hm (congrArg CallNumber.major heq).symm
    rw [Function.update_of_ne hm, count_singleton_of_ne hne, Nat.add_zero]

theorem entriesAt_unlink (he : e ∈ sh.callList major) (k : CallNumber) :
    entriesAt (sh.unlink major e) k + [CallNumber.mk major (sh.pool e.msg).seq].count k =
      entriesAt sh k := by
  obtain ⟨m, q⟩ := k
  unfold entriesAt Shared.unlink
  dsimp only
  by_cases hm : m = major
  · subst hm
    have hperm := (List.perm_cons_erase he).countP_eq fun e ↦ (sh.pool e.msg).seq == q
    rw [Function.update_self, hperm, List.countP_cons, List.count_singleton]
    congr 1
    exact if_congr (by rw [beq_iff_eq, beq_iff_eq, CallNumber.mk.injEq, eq_self, true_and]) rfl rfl
  · have hne : CallNumber.mk major (sh.pool e.msg).seq ≠ ⟨m, q⟩ := fun heq ↦
      hm (congrArg CallNumber.major heq).symm
    rw [Function.update_of_ne hm, count_singleton_of_ne hne, Nat.add_zero]

theorem entriesAt_unlink_le (sh : Shared ι σ) (major : Major) (e : PendingCall) (k : CallNumber) :
    entriesAt (sh.unlink major e) k ≤ entriesAt sh k := by
  show (Function.update sh.callList major ((sh.callList major).erase e) k.major).countP _ ≤ _
  by_cases hm : k.major = major
  · rw [hm, Function.update_self, entriesAt, hm]
    exact (List.erase_sublist (a := e)).countP_le
  · rw [Function.update_of_ne hm]
    exact le_rfl

theorem entriesAt_forward {m : MsgId} {ms : σ} :
    entriesAt (sh.forward m ms) k = entriesAt sh k :=
  entriesAt_congr rfl fun e _ ↦ by
    rw [pool_forward]
    by_cases he : e.msg = m
    · rw [he, Function.update_self]
    · rw [Function.update_of_ne he]

/-- The entries keep their numbers. -/
theorem entriesAt_kept (h : Good cfg s) (hmove : Move cfg i c s.shared sh' cs)
    (hlist : sh'.callList = s.shared.callList) (k : CallNumber) :
    entriesAt sh' k = entriesAt s.shared k :=
  entriesAt_congr (congrFun hlist _) fun _ he ↦
    Message.seq_eq (hmove.header_eq (h.not_free_of_entry he))

end Entries

/-! ### The returns of one step -/

section Returns

variable {cfg : Config ι σ} {s : State ι σ} {i : ι} {c : Cmd ι σ} {a : Choice ι σ}
  {rest cs : List (Cmd ι σ)} {sh sh' : Shared ι σ} {k : CallNumber} {m : MsgId} {major : Major}
  {e : PendingCall}

/-- The return has the numbers of the message. -/
theorem owes_eq_some (h : owes cfg sh m = some k) :
    (sh.pool m).major = some k.major ∧ (sh.pool m).seq = k.seq := by
  unfold owes at h
  split at h
  · obtain ⟨major, hmajor, rfl⟩ := Option.map_eq_some_iff.1 h
    exact ⟨hmajor, rfl⟩
  · cases h

theorem awaited_of_owes (h : owes cfg sh m = some k) (hpos : entriesAt sh k ≠ 0) :
    awaited cfg sh m = true := by
  rw [awaited, h, Option.any_some]
  exact bne_iff_ne.2 hpos

/-- The handler of a queued message owes the return the message does. -/
theorem replies_handler {ms : σ} {type : MessageType} {handler : Cmd ι σ}
    (hdst : (sh.pool m).dst = some ms) (htype : (sh.pool m).type = some type)
    (h : getHandler cfg ms m type = some handler) :
    (replies cfg).cmd sh handler = (replies cfg).msg sh m := by
  show _ = owes cfg sh m
  have hisCall := Message.isCall_of_type htype
  cases handles_of_getHandler h with
  | busCallReturn => rfl
  | call => rfl
  | busCall hbus hcall => cases type <;> cases hcall <;> simp [replies, owes, htype, hdst, hbus]
  | _ => simp [replies, owes, expectsReturn, hisCall, htype, MessageType.isCall]

theorem owes_return (htype : (sh.pool m).type = some .callReturn)
    (hmajor : (sh.pool m).major = some k.major) (hseq : (sh.pool m).seq = k.seq) :
    owes cfg sh m = some k := by
  rw [owes, htype, beq_self_eq_true, Bool.or_true, if_pos rfl, hmajor, Option.map_some, hseq]

theorem owes_request (hexpects : expectsReturn (sh.pool m) m = true)
    (hdst : (sh.pool m).dst ≠ some cfg.bus) (hmajor : (sh.pool m).major = some k.major)
    (hseq : (sh.pool m).seq = k.seq) : owes cfg sh m = some k := by
  rw [owes, hexpects, Bool.true_and, bne_iff_ne.2 hdst, Bool.true_or, if_pos rfl, hmajor,
    Option.map_some, hseq]

/-- The match of a return stands for what the return stood for. -/
theorem replies_matched {major : Major} {e : PendingCall} (hk : owes cfg sh m = some k)
    (hmajor : (sh.pool m).major = some major)
    (hfind : (sh.callList major).find? (fun e ↦ (sh.pool e.msg).seq == (sh.pool m).seq) = some e) :
    (replies cfg).cmd sh (.complete major e) = some k := by
  obtain ⟨hmajor', hseq⟩ := owes_eq_some hk
  obtain rfl := Option.some.inj (hmajor.symm.trans hmajor')
  have hfound := List.find?_some hfind
  rw [beq_iff_eq, hseq] at hfound
  exact congrArg (fun q ↦ some (CallNumber.mk k.major q)) hfound

/-- **A return to come is passed on**: what stood for it is replaced by something that does, unless
no entry waits for it. -/
theorem replies_passed (he : Effect cfg i c a s.shared sh' cs) (hok : answerable cfg c a s.shared = true)
    (hpost : ∀ t m, c ≠ .post t m) (hcomplete : ∀ major e, c ≠ .complete major e)
    (hk : (replies cfg).cmd s.shared c = some k) :
    (∃ x ∈ cs, (replies cfg).cmd sh' x = some k) ∨ entriesAt s.shared k = 0 := by
  by_cases hzero : entriesAt s.shared k = 0
  · exact .inr hzero
  cases he with
  | postFull => exact absurd rfl (hpost _ _)
  | postDone => exact absurd rfl (hpost _ _)
  | completed => exact absurd rfl (hcomplete _ _)
  | userMalloc | userFailed =>
    exact .inl ⟨_, List.mem_singleton_self _, (Tally.cmd_of_pool rfl _).trans hk⟩
  | userCall hmay =>
    rename_i u f
    have hpool := (sameMessages_callApi cfg i s.shared f).pool_eq
    exact .inl ⟨.userCode u, List.mem_append_right _ (List.mem_singleton_self _),
      (Tally.cmd_of_pool hpool _).trans hk⟩
  | serviceFinished hmajor =>
    obtain ⟨hmajor', hseq⟩ := owes_eq_some hk
    obtain rfl := Option.some.inj (hmajor.symm.trans hmajor')
    exact .inl ⟨_, List.mem_cons_self, congrArg (fun q ↦ some (CallNumber.mk k.major q)) hseq⟩
  | sendFailed hnone =>
    -- no answer is given up while an entry waits for it
    rename_i b
    have hsend : (if b.type = .callReturn then some (CallNumber.mk b.major b.seq) else none) =
      some k := hk
    split at hsend
    · next htype =>
      obtain rfl := Option.some.inj hsend
      rw [answerable, hnone, htype, beq_false_of_ne hzero] at hok
      cases hok
    · cases hsend
  | sendDone halloc hctx =>
    rename_i b n t
    obtain ⟨free, -, rfl⟩ := alloc_eq_some halloc
    refine .inl ⟨.post t n, List.mem_cons_self, ?_⟩
    have hsend : (if b.type = .callReturn then some (CallNumber.mk b.major b.seq) else none) =
      some k := hk
    split at hsend
    · next htype =>
      obtain rfl := Option.some.inj hsend
      refine owes_return ?_ ?_ ?_ <;> dsimp only <;> rw [Function.update_self]
      · rw [← htype]
        exact getType_mkCode _ _ _
      · exact getMajor_mkCode _ _ _
      · rfl
    · cases hsend
  | returnNoCalls hmajor hempty =>
    obtain ⟨hmajor', -⟩ := owes_eq_some hk
    obtain rfl := Option.some.inj (hmajor.symm.trans hmajor')
    refine .inr ?_
    rw [entriesAt, hempty]
    rfl
  | returnUnmatched hmajor hne hno =>
    -- `bus_call_return` has looked at the whole list
    obtain ⟨hmajor', hseq⟩ := owes_eq_some hk
    obtain rfl := Option.some.inj (hmajor.symm.trans hmajor')
    refine .inr (List.countP_eq_zero.2 fun e he ↦ ?_)
    rw [beq_iff_eq, ← hseq]
    exact hno e he
  | returnOther hmajor hfind =>
    exact .inl ⟨_, List.mem_cons_self, replies_matched hk hmajor hfind⟩
  | returnSync hmajor hfind =>
    exact .inl ⟨_, List.mem_cons_of_mem _ List.mem_cons_self, replies_matched hk hmajor hfind⟩
  | returnAsync hmajor hfind =>
    exact .inl ⟨_, List.mem_cons_of_mem _ (List.mem_cons_of_mem _ List.mem_cons_self),
      replies_matched hk hmajor hfind⟩
  | requestUndecodable hpayload hread | requestUnhandled hpayload hread =>
    -- the service does not answer: an entry may not wait for it
    rw [answerable, awaited_of_owes hk hzero, findsHandler, hpayload] at hok
    simp only [hread] at hok
    cases hok
  | requestRefused hpayload hread hmajor =>
    obtain ⟨hmajor', hseq⟩ := owes_eq_some hk
    obtain rfl := Option.some.inj (hmajor.symm.trans hmajor')
    exact .inl ⟨_, List.mem_cons_self, congrArg (fun q ↦ some (CallNumber.mk k.major q)) hseq⟩
  | requestCalled hpayload hread =>
    exact .inl ⟨_, List.mem_singleton_self _, hk⟩
  | _ => cases hk

/-! ### The reduction -/

/-- With one entry less, no more returns are waited for. -/
theorem awaited_of_unlink {m : MsgId} (h : awaited cfg (sh.unlink major e) m = true) :
    awaited cfg sh m = true := by
  have howes : owes cfg (sh.unlink major e) m = owes cfg sh m := rfl
  rw [awaited, howes] at h
  cases hk : owes cfg sh m with
  | none =>
    rw [hk] at h
    cases h
  | some k =>
    rw [hk, Option.any_some, bne_iff_ne] at h
    exact awaited_of_owes hk fun hzero ↦
      h (Nat.eq_zero_of_le_zero (hzero ▸ entriesAt_unlink_le sh major e k))

theorem requested_of_unlink {m : MsgId} (h : requested cfg (sh.unlink major e) m = true) :
    requested cfg sh m = true := by
  have hpool : (sh.unlink major e).pool = sh.pool := rfl
  rw [requested, hpool, Bool.and_eq_true, Bool.or_eq_true] at h
  rw [requested, Bool.and_eq_true, Bool.or_eq_true]
  refine ⟨h.1, h.2.imp_right fun hany ↦ ?_⟩
  cases hmajor : (sh.pool m).major with
  | none =>
    rw [hmajor] at hany
    cases hany
  | some n =>
    rw [hmajor, Option.any_some, bne_iff_ne] at hany
    rw [Option.any_some, bne_iff_ne]
    exact fun hzero ↦
      hany (Nat.eq_zero_of_le_zero (hzero ▸ entriesAt_unlink_le sh major e ⟨n, _⟩))

theorem Answerable.unseen : Unseen (Answerable cfg) := by
  intro i c a sh major e huses hok
  obtain ⟨hwrap, hanswerable⟩ := hok
  refine ⟨hwrap, ?_⟩
  cases c with
  | send args =>
    unfold answerable at hanswerable ⊢
    rw [Bool.or_eq_true, Bool.or_eq_true] at hanswerable ⊢
    rw [isSome_alloc_unlink]
    refine hanswerable.imp_left (Or.imp_right fun hzero ↦ ?_)
    rw [beq_iff_eq] at hzero ⊢
    exact Nat.eq_zero_of_le_zero (hzero ▸ entriesAt_unlink_le sh major e _)
  | post t m =>
    unfold answerable at hanswerable ⊢
    rw [Bool.or_eq_true, Bool.not_eq_true', Bool.or_eq_false_iff] at hanswerable ⊢
    refine hanswerable.imp_left fun hnone ↦ ⟨?_, ?_⟩
    · exact Bool.eq_false_iff.2 fun h ↦ Bool.eq_false_iff.1 hnone.1 (requested_of_unlink h)
    · exact Bool.eq_false_iff.2 fun h ↦ Bool.eq_false_iff.1 hnone.2 (awaited_of_unlink h)
  | ipcHandler ms m =>
    unfold answerable at hanswerable ⊢
    rw [Bool.or_eq_true, Bool.not_eq_true'] at hanswerable ⊢
    refine hanswerable.imp_left fun hnone ↦ ?_
    exact Bool.eq_false_iff.2 fun h ↦ Bool.eq_false_iff.1 hnone (awaited_of_unlink h)
  | busCall | busCallReturn | complete | unlink => cases huses
  | _ => exact hanswerable

end Returns

/-! ### The invariant along a run -/

section Circulation

variable {cfg : Config ι σ} {s : State ι σ} {i : ι} {c : Cmd ι σ} {a : Choice ι σ}
  {rest cs : List (Cmd ι σ)} {sh' : Shared ι σ} {m : MsgId}

/-- **A request for the bus gets there**: it stays in the queue or on its way to it, or `bus_call`
takes it up. -/
theorem Circulates.step (hcirc : Circulates s m) (hc : s.threads i = c :: rest)
    (he : Effect cfg i c a s.shared sh' cs) (hok : answerable cfg c a s.shared = true)
    (hrequested : requested cfg s.shared m = true)
    (hdst : (s.shared.pool m).dst = some cfg.bus) (hisCall : (s.shared.pool m).isCall = true)
    (hcall : c ≠ .busCall m) : Circulates ⟨sh', Function.update s.threads i (cs ++ rest)⟩ m := by
  have hmove := move_of_effect he
  have hold : ∀ {j x}, x ∈ s.threads j → x ≠ c → x ∈ Function.update s.threads i (cs ++ rest) j :=
    fun hx hne ↦ mem_expand_iff.2 (.inr ((mem_cases hc hx).resolve_left fun heq ↦ hne heq.2))
  cases hcirc with
  | queued hq =>
    rcases hmove.mq_kept hq with hq | ⟨-, ms, type, handler, rfl, hdst', htype, hhandler⟩
    · exact .queued hq
    · obtain rfl := Option.some.inj (hdst.symm.trans hdst')
      rw [Message.isCall_of_type htype] at hisCall
      have hbusCall : handler = .busCall m := by
        cases handles_of_getHandler hhandler with
        | busCall => rfl
        | signal hne => exact absurd rfl hne
        | call hne => exact absurd rfl hne
        | _ => cases hisCall
      exact .handled (mem_expand_iff.2 (.inl ⟨rfl, List.mem_singleton.2 hbusCall.symm⟩))
  | @posted j t hpost =>
    by_cases hpc : .post t m = c
    · subst hpc
      cases he with
      | postFull hfull =>
        rw [answerable, hrequested, Bool.true_or, Bool.not_true, Bool.false_or,
          decide_eq_true_eq] at hok
        exact absurd hok (Nat.not_lt_of_le hfull)
      | postDone hroom =>
        refine .queued (t := t) ?_
        dsimp only
        rw [Function.update_self]
        exact List.mem_append_right _ (List.mem_singleton_self _)
    · exact .posted (hold hpost hpc)
  | handled hhandled => exact .handled (hold hhandled fun heq ↦ hcall heq.symm)

end Circulation

namespace Replied

variable {cfg : Config ι σ} {s : State ι σ} {i : ι} {c : Cmd ι σ} {a : Choice ι σ}
  {rest cs : List (Cmd ι σ)} {sh' : Shared ι σ}

/-- A request with an entry is one that must not be lost. -/
theorem requested_of_entry (h : Replied cfg s) {major : Major} {e : PendingCall}
    (he : e ∈ s.shared.callList major) (hdst : (s.shared.pool e.msg).dst = some cfg.bus) :
    requested cfg s.shared e.msg = true := by
  obtain ⟨hmajor, hcall, hentry⟩ := h.linked major e he
  have hpos := Nat.pos_iff_ne_zero.1 (entriesAt_pos he)
  rw [requested, expectsReturn, hcall, hentry, hdst, hmajor, Option.any_some, bne_iff_ne.2 hpos,
    beq_self_eq_true, Option.isSome_some, Bool.or_true]
  rfl

theorem covered_step (h : Replied cfg s) (hc : s.threads i = c :: rest)
    (he : Effect cfg i c a s.shared sh' cs) (hok : answerable cfg c a s.shared = true)
    {k : CallNumber} (hk : cfg.node k.major ≠ some cfg.bus) :
    entriesAt sh' k ≤ (replies cfg).total ⟨sh', Function.update s.threads i (cs ++ rest)⟩ k := by
  have hbefore := h.covered k hk
  have hmove := move_of_effect he
  -- a step that touches no queue and no call list passes every return on
  have hpass : sh'.mq = s.shared.mq → sh'.callList = s.shared.callList →
      (∀ t m, c ≠ .post t m) → (∀ major e, c ≠ .complete major e) →
      entriesAt sh' k ≤
        (replies cfg).total ⟨sh', Function.update s.threads i (cs ++ rest)⟩ k := by
    intro hmq hlist hpost hcomplete
    have htotal := Tally.total_step (T := replies cfg) h.toGood hc hmove hmq k
    rw [entriesAt_kept h.toGood hmove hlist]
    by_cases hzero : entriesAt s.shared k = 0
    · rw [hzero]
      exact Nat.zero_le _
    · have hle := count_token_le (g := (replies cfg).cmd sh') fun hck ↦
        (replies_passed he hok hpost hcomplete hck).resolve_right hzero
      omega
  cases he with
  | removed hmq hdst htype hhandler =>
    rename_i n tail ms type handler
    have htotal := Tally.total_removed (T := replies cfg) (b := k) hc hmq handler
    have hsame := count_token_congr (f := (replies cfg).cmd s.shared) (g := (replies cfg).msg s.shared)
      (y := k) (by rw [replies_handler hdst htype hhandler])
    have hremove : ([Cmd.remove].filterMap ((replies cfg).cmd s.shared)).count k = 0 := rfl
    rw [entriesAt_kept h.toGood hmove rfl]
    dsimp only at htotal ⊢
    omega
  | postFull hfull =>
    rename_i t n
    have htotal := Tally.total_step (T := replies cfg) h.toGood hc hmove rfl k
    by_cases howes : owes cfg s.shared n = some k
    · have hzero : entriesAt s.shared k = 0 := by
        by_contra hpos
        rw [answerable, awaited_of_owes howes hpos, Bool.or_true, Bool.not_true, Bool.false_or,
          decide_eq_true_eq] at hok
        exact absurd hok (Nat.not_lt_of_le hfull)
      omega
    · have hzero : ([Cmd.post t n].filterMap ((replies cfg).cmd s.shared)).count k = 0 :=
        count_token_of_ne howes
      omega
  | postDone hroom =>
    rename_i t n
    have htotal := Tally.total_posted (T := replies cfg) hc k
    have hsame : ([Cmd.post t n].filterMap ((replies cfg).cmd s.shared)).count k =
        ([n].filterMap ((replies cfg).msg s.shared)).count k := rfl
    have hsem : ([Cmd.semPost t].filterMap ((replies cfg).cmd s.shared)).count k = 0 := rfl
    rw [entriesAt_kept h.toGood hmove rfl]
    dsimp only at htotal ⊢
    omega
  | callNoSegment | callNoMemory => exact hpass rfl rfl (by simp) (by simp)
  | callNoEntry => exact hpass rfl rfl (by simp) (by simp)
  | callLinked hmajor hnode hctx hentry =>
    rename_i n major ms t e
    have htotal := Tally.total_step (T := replies cfg) h.toGood hc hmove rfl k
    obtain rfl := pendingCall_msg hentry
    have hheader := hmove.header_eq (h.not_free (Good.mem_head hc) rfl)
    have hseq := Message.seq_eq hheader
    have hentries := entriesAt_link s.shared major e k
    rw [show entriesAt _ k = entriesAt ((s.shared.link major e).log
      (.linked major e (s.shared.pool e.msg).seq)) k from entriesAt_forward]
    have hbusCall : ([Cmd.busCall e.msg].filterMap ((replies cfg).cmd s.shared)).count k = 0 := rfl
    have hle : [CallNumber.mk major (s.shared.pool e.msg).seq].count k ≤
        ([Cmd.post t e.msg].filterMap ((replies cfg).cmd
          (Shared.forward ((s.shared.link major e).log
            (.linked major e (s.shared.pool e.msg).seq)) e.msg ms))).count k := by
      refine count_token_le (f := some) fun heq ↦ ⟨_, List.mem_singleton_self _, ?_⟩
      obtain rfl := Option.some.inj heq
      refine owes_request ?_ (fun hdst ↦ hk ?_) ((Message.major_eq hheader).trans hmajor) hseq
      · rw [expectsReturn, Message.isCall_eq hheader, Message.pendingCall_eq hheader, hentry,
          (h.knows i _ (Good.mem_head hc)).2.1, Option.isSome_some, Bool.and_true]
      · rw [pool_forward, Function.update_self] at hdst
        exact hnode.trans hdst
    have hlog : entriesAt ((s.shared.link major e).log
      (.linked major e (s.shared.pool e.msg).seq)) k = entriesAt (s.shared.link major e) k := rfl
    omega
  | completed =>
    rename_i major e
    have htotal := Tally.total_step (T := replies cfg) h.toGood hc hmove
      (mq_release s.shared e.msg) k
    have hlist := callList_release s.shared e.msg
    have hmem : e ∈ (s.shared.release e.msg).callList major :=
      hlist ▸ (h.knows i _ (Good.mem_head hc)).2
    have hunlink := entriesAt_unlink hmem k
    rw [Message.seq_eq (header_release s.shared e.msg e.msg), entriesAt_congr (congrFun hlist _)
      fun e' _ ↦ Message.seq_eq (header_release s.shared e.msg e'.msg)] at hunlink
    have hlog : entriesAt (((s.shared.release e.msg).unlink major e).log (.unlinked major e)) k =
      entriesAt ((s.shared.release e.msg).unlink major e) k := rfl
    have htoken : ([Cmd.complete major e].filterMap ((replies cfg).cmd s.shared)).count k =
      [CallNumber.mk major (s.shared.pool e.msg).seq].count k := rfl
    have hnil : (([] : List (Cmd ι σ)).filterMap ((replies cfg).cmd
      (((s.shared.release e.msg).unlink major e).log (.unlinked major e)))).count k = 0 := rfl
    omega
  | _ =>
    exact hpass (hmove.mq_eq (by simp) (by simp)) (hmove.callList_eq (by simp) (by simp))
      (by simp) (by simp)

/-- **A request for the bus itself goes round.** -/
theorem circulating_step (h : Replied cfg s) (hc : s.threads i = c :: rest)
    (he : Effect cfg i c a s.shared sh' cs) (hok : answerable cfg c a s.shared = true)
    {major : Major} (hself : cfg.node major = some cfg.bus) {e : PendingCall}
    (hmem : e ∈ sh'.callList major) : (sh'.pool e.msg).dst = some cfg.bus ∧
      Circulates ⟨sh', Function.update s.threads i (cs ++ rest)⟩ e.msg := by
  have hmove := move_of_effect he
  by_cases hcall : c = .busCall e.msg
  · -- it is the bus's turn to pass the request on, to itself
    subst hcall
    have hmajor : (s.shared.pool e.msg).major = some major :=
      (hmove.entry_origin hmem).elim (fun hold ↦ (h.linked major e hold).1) fun hnew ↦ hnew.2.1
    cases he with
    | callNoSegment hmajor' hnode =>
      obtain rfl := Option.some.inj (hmajor.symm.trans hmajor')
      have hnone := hnode _ hself
      rw [cfg.context_bus] at hnone
      cases hnone
    | callNoEntry _ hnode hctx hentry =>
      rw [(h.linked major e hmem).2.2] at hentry
      cases hentry
    | callNoMemory _ hnode hctx hentry =>
      rw [answerable, h.requested_of_entry hmem (h.knows i _ (Good.mem_head hc)).2.2] at hok
      cases hok
    | callLinked hmajor' hnode hctx hentry =>
      obtain rfl := Option.some.inj (hmajor.symm.trans hmajor')
      obtain rfl := Option.some.inj (hself.symm.trans hnode)
      refine ⟨?_, .posted (mem_expand_iff.2 (.inl ⟨rfl, List.mem_singleton_self _⟩))⟩
      rw [pool_forward, Function.update_self]
  · obtain hmem' : e ∈ s.shared.callList major :=
      (hmove.entry_origin hmem).resolve_right fun hlinked ↦ hcall hlinked.1
    obtain ⟨hdst, hcirc⟩ := h.circulating major hself e hmem'
    exact ⟨(hmove.dst_eq (h.not_free_of_entry hmem') hcall).trans hdst,
      hcirc.step hc he hok (h.requested_of_entry hmem' hdst) hdst (h.linked major e hmem').2.1
        hcall⟩

/-- **The step lemma.** -/
theorem step (h : Replied cfg s) {l : ι × Choice ι σ} {t : State ι σ}
    (hok : AtHead (Answerable cfg) s l) (hstep : (fused cfg).step s l = some t) :
    Replied cfg t := by
  have hgood := h.toGood.step (hok.mono fun hanswerable ↦ hanswerable.1) hstep
  obtain ⟨c, rest, sh', cs, hc, he, rfl⟩ := effect_of_step hstep
  have hanswerable := (hok.cmd hc).2
  exact ⟨hgood, fun k hk ↦ h.covered_step hc he hanswerable hk,
    fun major hself e hmem ↦ h.circulating_step hc he hanswerable hself hmem⟩

theorem initial (cfg : Config ι σ) : Replied cfg (initial cfg) :=
  ⟨Good.initial cfg, fun _ _ ↦ Nat.zero_le _, fun _ _ _ he ↦ absurd he List.not_mem_nil⟩

theorem of_run {s : State ι σ}
    (h : Run (fused cfg).step (AtHead (Answerable cfg)) (Mblue.initial cfg) s) : Replied cfg s :=
  h.invariant (initial cfg) fun ha hok hstep ↦ ha.step hok hstep

end Replied

end Mblue
