import Mblue.System.Pending
import Mblue.System.Reduction

/-!
# Returns find their calls

`bus_call_return` searches a list for the first entry with the return's sequence number. While every
call is answered before the counter has gone round (`Prompt`), this is a look-up in a table with a
key for each pending call:

* the calls that are pending under one major number have different sequence numbers
  (`callsDistinct_of_run`);
* so the lists are a table from major and sequence number to entries: `bus_call` defines a key that
  is free, the end of a match clears the key of its entry, and nothing else changes the table
  (`tableStep_of_run`).

A call is pending until the bus has released its request at the end of its match. Its entry is still
in the list then, up to the `list_del` that follows, but the request may be free or another one
already, and so its number says nothing. Therefore both results are about the lists without the entry
that is about to be unlinked, that is about the fused state (`fuse`).

Drawing a number is one step here. The source reads the counter once more when it has left the
critical section, so two tasks that draw at the same time can get the same number.
-/

set_option linter.unusedSectionVars false

namespace Mblue

variable {ι σ : Type}

/-- A table from major and sequence numbers to pending calls. -/
abbrev CallTable := Major → Uint16 → Option PendingCall

/-- The table with another entry under one key. -/
def CallTable.set (T : CallTable) (major : Major) (seq : Uint16) (e : Option PendingCall) :
    CallTable :=
  Function.update T major (Function.update (T major) seq e)

/-- The sequence number of the request an entry is for. -/
def entrySeq (sh : Shared ι σ) (e : PendingCall) : Uint16 := (sh.pool e.msg).seq

/-- **The pending calls as a table**: what `bus_call_return` finds under a key. -/
def pendingTable (sh : Shared ι σ) : CallTable :=
  fun major seq ↦ KeyedList.lookup (entrySeq sh) seq (sh.callList major)

/-- What a command does to the table. -/
inductive TableStep (sh : Shared ι σ) : Cmd ι σ → CallTable → CallTable → Prop
  /-- `bus_call` defines a key that was free. -/
  | link {m major e T} (hmajor : (sh.pool m).major = some major)
      (hentry : pendingCall (sh.pool m) m = some e) (hfree : T major (sh.pool m).seq = none) :
      TableStep sh (.busCall m) T (T.set major (sh.pool m).seq (some e))
  /-- The end of a match clears the key of its entry. -/
  | take {major e T} (hheld : T major (entrySeq sh e) = some e) :
      TableStep sh (.complete major e) T (T.set major (entrySeq sh e) none)
  | stay {c T} (hc : ∀ major e, c ≠ .complete major e) : TableStep sh c T T

variable [Fintype ι] [DecidableEq ι] [DecidableEq σ] {cfg : Config ι σ} {s : State ι σ} {i : ι}
  {c : Cmd ι σ} {a : Choice ι σ} {rest cs : List (Cmd ι σ)} {sh' : Shared ι σ}

namespace Pending

/-- Two requests of the last round of the counter with one number are one request. -/
theorem eq_of_seq (h : Pending cfg s) {m n : MsgId} (hm : m ∉ s.shared.msgList)
    (hn : n ∉ s.shared.msgList) (hmcall : (s.shared.pool m).isCall = true)
    (hncall : (s.shared.pool n).isCall = true)
    (hmrecent : s.shared.draws < (s.shared.pool m).draw + 32768)
    (hnrecent : s.shared.draws < (s.shared.pool n).draw + 32768)
    (hseq : (s.shared.pool m).seq = (s.shared.pool n).seq) : m = n := by
  refine h.sole_msg m n hm hn hmcall hncall ?_
  have hmod := h.msg_seq m hm hmcall
  have hmod' := h.msg_seq n hn hncall
  have hle := h.numbered.pool_le m hm
  have hle' := h.numbered.pool_le n hn
  have heq : (s.shared.pool m).seq.val = (s.shared.pool n).seq.val := congrArg Fin.val hseq
  omega

/-- A request has one entry at most. -/
theorem nodup_msgs (h : Pending cfg s) (major : Major) :
    ((s.shared.callList major).map PendingCall.msg).Nodup := by
  refine List.nodup_iff_count_le_one.2 fun m ↦ le_trans ?_ (h.entries_le m)
  exact le_sum (fun major ↦ (s.shared.callList major).map PendingCall.msg) (fun l ↦ l.count m) major

/-- **Pending calls have different numbers.** -/
theorem distinct (h : Pending cfg s) (major : Major) :
    KeyedList.Distinct (entrySeq s.shared) (s.shared.callList major) := by
  have hmap : (s.shared.callList major).map (entrySeq s.shared) =
      ((s.shared.callList major).map PendingCall.msg).map fun m ↦ (s.shared.pool m).seq := by
    rw [List.map_map]
    rfl
  rw [KeyedList.Distinct, hmap]
  refine (h.nodup_msgs major).map_on fun m hm m' hm' hseq ↦ ?_
  obtain ⟨e, he, rfl⟩ := List.mem_map.1 hm
  obtain ⟨e', he', rfl⟩ := List.mem_map.1 hm'
  exact h.eq_of_seq (h.not_free_of_entry he) (h.not_free_of_entry he') (h.linked major e he).2.1
    (h.linked major e' he').2.1 (h.recent major e he) (h.recent major e' he') hseq

/-- A request that gets its entry has a number that no pending call has. -/
theorem seq_ne_of_busCall (h : Pending cfg s) {m : MsgId} (hc : s.threads i = .busCall m :: rest)
    (hprompt : prompt (.busCall m) a s.shared = true) {major : Major} {e : PendingCall}
    (he : e ∈ s.shared.callList major) : entrySeq s.shared e ≠ (s.shared.pool m).seq := by
  intro hseq
  have hhead := Good.mem_head hc
  obtain ⟨-, hcall, hdst⟩ := h.knows i _ hhead
  have heq := h.eq_of_seq (h.not_free_of_entry he) (h.not_free hhead rfl) (h.linked major e he).2.1
    hcall (h.recent major e he) (of_decide_eq_true hprompt) hseq
  exact h.entry_dst major e he (heq ▸ hdst)

/-- The numbers of the entries stay. -/
theorem entrySeq_eq (h : Pending cfg s) (hmove : Move cfg i c s.shared sh' cs) {major : Major}
    {e : PendingCall} (he : e ∈ s.shared.callList major) :
    entrySeq s.shared e = entrySeq sh' e :=
  (Message.seq_eq (hmove.header_eq (h.not_free_of_entry he))).symm

/-- A list that stays is the same part of the table. -/
theorem lookup_kept (h : Pending cfg s) (hmove : Move cfg i c s.shared sh' cs) {major : Major}
    (hlist : sh'.callList major = s.shared.callList major) (seq : Uint16) :
    pendingTable sh' major seq = pendingTable s.shared major seq := by
  rw [pendingTable, pendingTable, hlist]
  exact (KeyedList.lookup_congr fun e he ↦ h.entrySeq_eq hmove he).symm

theorem table_linked (h : Pending cfg s) {m : MsgId} (hc : s.threads i = .busCall m :: rest)
    (hprompt : prompt (.busCall m) a s.shared = true)
    (hmove : Move cfg i (.busCall m) s.shared sh' cs) {major : Major} {e : PendingCall}
    (hentry : pendingCall (s.shared.pool m) m = some e)
    (hlist : sh'.callList = Function.update s.shared.callList major
      (s.shared.callList major ++ [e])) :
    pendingTable sh' =
      (pendingTable s.shared).set major (s.shared.pool m).seq (some e) := by
  obtain rfl := pendingCall_msg hentry
  have hfree := h.not_free (Good.mem_head hc) (m := e.msg) rfl
  have hseq : entrySeq sh' e = (s.shared.pool e.msg).seq := Message.seq_eq (hmove.header_eq hfree)
  funext major' seq
  by_cases hmajor : major' = major
  · subst hmajor
    have hnew : ∀ e' ∈ s.shared.callList major', entrySeq sh' e' ≠ entrySeq sh' e :=
      fun e' he' heq ↦ h.seq_ne_of_busCall hc hprompt he'
        ((h.entrySeq_eq hmove he').trans (heq.trans hseq))
    rw [pendingTable, hlist, Function.update_self, KeyedList.lookup_append hnew, hseq,
      CallTable.set, Function.update_self, Function.update_apply, pendingTable,
      KeyedList.lookup_congr fun e' he' ↦ h.entrySeq_eq hmove he']
  · rw [h.lookup_kept hmove (by rw [hlist, Function.update_of_ne hmajor]), CallTable.set,
      Function.update_of_ne hmajor]

theorem table_completed (h : Pending cfg s) {major : Major} {e : PendingCall}
    (hmove : Move cfg i (.complete major e) s.shared sh' cs)
    (he : e ∈ s.shared.callList major)
    (hlist : sh'.callList = Function.update s.shared.callList major
      ((s.shared.callList major).erase e)) :
    pendingTable sh' = (pendingTable s.shared).set major (entrySeq s.shared e) none := by
  funext major' seq
  by_cases hmajor : major' = major
  · subst hmajor
    have hkeys : ∀ e' ∈ (s.shared.callList major').erase e, entrySeq sh' e' =
        entrySeq s.shared e' := fun e' he' ↦
      (h.entrySeq_eq hmove (List.mem_of_mem_erase he')).symm
    rw [pendingTable, hlist, Function.update_self, KeyedList.lookup_congr hkeys,
      KeyedList.lookup_erase (h.distinct major') he, CallTable.set, Function.update_self,
      Function.update_apply, pendingTable]
  · rw [h.lookup_kept hmove (by rw [hlist, Function.update_of_ne hmajor]), CallTable.set,
      Function.update_of_ne hmajor]

/-- **One step**, seen in the table. -/
theorem tableStep (h : Pending cfg s) (hc : s.threads i = c :: rest)
    (he : Effect cfg i c a s.shared sh' cs) (hprompt : prompt c a s.shared = true) :
    TableStep s.shared c (pendingTable s.shared) (pendingTable sh') := by
  have hmove := move_of_effect he
  by_cases hcomplete : ∃ major e, c = .complete major e
  · obtain ⟨major, e, rfl⟩ := hcomplete
    have hknows := h.knows i _ (Good.mem_head hc)
    cases he
    have hlist : (((s.shared.release e.msg).unlink major e).log (.unlinked major e)).callList =
        Function.update s.shared.callList major ((s.shared.callList major).erase e) := by
      show Function.update (s.shared.release e.msg).callList major _ = _
      rw [callList_release]
    rw [h.table_completed hmove hknows.2 hlist]
    exact .take ((KeyedList.lookup_eq_some_iff (h.distinct major)).2 ⟨hknows.2, rfl⟩)
  · have hne : ∀ major e, c ≠ .complete major e := fun major e heq ↦ hcomplete ⟨major, e, heq⟩
    have hstay : sh'.callList = s.shared.callList →
        TableStep s.shared c (pendingTable s.shared) (pendingTable sh') := fun hlist ↦ by
      have htable : pendingTable sh' = pendingTable s.shared := funext fun major ↦
        funext fun seq ↦ h.lookup_kept hmove (congrFun hlist major) seq
      rw [htable]
      exact .stay hne
    cases hmove with
    | linked hmajor hnode hctx hentry =>
      rw [h.table_linked hc hprompt (move_of_effect he) hentry rfl]
      refine .link hmajor hentry (KeyedList.lookup_eq_none_iff.2 fun e' he' ↦ ?_)
      exact h.seq_ne_of_busCall hc hprompt he'
    | completed => exact absurd rfl (hne _ _)
    | quiet hsame hcarried => exact hstay hsame.callList_eq
    | taken hmakes halloc hsame hcarried =>
      obtain ⟨_, -, rfl⟩ := alloc_eq_some halloc
      exact hstay hsame.callList_eq
    | dropped hd hcarried => exact hstay (callList_release s.shared _)
    | _ => exact hstay rfl

end Pending

/-- What is known of the pending calls of one major number. -/
structure CallsDistinct (s : State ι σ) : Prop where
  /-- They have different sequence numbers. -/
  distinct : ∀ major, ((s.shared.callList major).map (entrySeq s.shared)).Nodup
  /-- Each is a request with this major number, whose number is its draw on the 15-bit counter. -/
  request : ∀ major, ∀ e ∈ s.shared.callList major, (s.shared.pool e.msg).isCall = true ∧
    (s.shared.pool e.msg).major = some major ∧
      (entrySeq s.shared e).val = (s.shared.pool e.msg).draw % 32768

theorem Pending.callsDistinct (h : Pending cfg s) : CallsDistinct s := by
  refine ⟨h.distinct, fun major e he ↦ ?_⟩
  obtain ⟨hmajor, hcall, -⟩ := h.linked major e he
  exact ⟨hcall, hmajor, h.msg_seq e.msg (h.not_free_of_entry he) hcall⟩

/-! ### The entry that is being unlinked -/

theorem Prompt.unseen : Unseen (Prompt cfg) := by
  intro i c a sh major e _ hok
  obtain ⟨hself, hprompt⟩ := hok
  refine ⟨hself, ?_⟩
  cases c with
  | userCode k =>
    cases a with
    | api f =>
      unfold prompt at hprompt ⊢
      rw [Bool.or_eq_true, decide_eq_true_eq] at hprompt ⊢
      exact hprompt.imp_right fun hall n e' he' ↦ hall n e' (mem_callList_of_unlink he')
    | _ => exact hprompt
  | _ => exact hprompt

/-- A run with prompt answers, as a run of the fused system. -/
theorem pending_of_run (h : Run (system cfg).step (AtHead (Prompt cfg)) (initial cfg) s) :
    Split cfg s ∧ Pending cfg (fuse cfg s) :=
  (Split.of_run h Prompt.unseen fun hr ↦ (Pending.of_run hr).toGood).imp_right Pending.of_run

/-- A step of the table depends on the requests only. -/
theorem TableStep.congr {sh sh' : Shared ι σ} {T T' : CallTable} (h : TableStep sh c T T')
    (hpool : sh'.pool = sh.pool) : TableStep sh' c T T' := by
  have hseq : entrySeq sh' = entrySeq sh := funext fun e ↦ by rw [entrySeq, entrySeq, hpool]
  cases h with
  | link hmajor hentry hfree =>
    rw [← hpool] at hmajor hentry hfree ⊢
    exact .link hmajor hentry hfree
  | take hheld =>
    rw [← hseq] at hheld ⊢
    exact .take hheld
  | stay hc => exact .stay hc

/-- Task `2` makes two asynchronous calls, and the bus takes the first. -/
def twoCalls : List (Fin 3 × Choice (Fin 3) Bool) :=
  (2, .api (.mblueRemoteCallAsync mblueLogService 0 0)) :: List.replicate 4 (2, .go) ++
    (2, .api (.mblueRemoteCallAsync mblueLogService 0 0)) :: List.replicate 4 (2, .go) ++
    (0, .finish 0) :: List.replicate 5 (0, .go)

end Mblue
