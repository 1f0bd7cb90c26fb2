import Mblue.Properties.CallMatching
import Mblue.System.CallEvents

/-!
# Returns answer the calls they are for

What the bus does with a `CALL_RETURN` while every call is answered before the 15-bit counter has
gone round (`Prompt`):

* the calls pending under one major number have different sequence numbers, and each is the request
  that drew its number (`CallsDistinct`);
* a return with the numbers of a pending call answers that call and no other: it writes the caller's
  cell and posts the caller, or calls the notifier and frees it (`Answer`), and takes the entry out
  of its list, whatever the other threads and the notifier do meanwhile (`Processes`);
* any other return is released and changes nothing; but one that finds no pending call at all is
  also logged, which is a call of the log service made by the bus.

The answer takes several steps of the bus, so it is followed by the accounting of
`System/CallEvents.lean`: what has happened and what the bus has left to do together are the same
all the time (`Closing`).
-/

set_option linter.unusedSectionVars false

namespace Mblue

variable {ι σ : Type} [Fintype ι] [DecidableEq ι] [DecidableEq σ]

/-! ### Whose cell it is -/

/-- The cell is that of the call with this source and these numbers. -/
structure CellOf (cfg : Config ι σ) (sh : Shared ι σ) (x : CellId) (src : Source ι) (major : Major)
    (seq : Uint16) : Prop where
  lt : x < sh.ncells
  src_eq : src = cfg.getCurrentContext (sh.cells x).caller
  major_eq : (sh.cells x).major = major
  seq_eq : (sh.cells x).seq = seq

/-- A request knows its cell or its notifier, a message has a major number, an entry was linked for
the request it refers to. -/
structure Formed (cfg : Config ι σ) (s : State ι σ) : Prop extends Pending cfg s where
  send_cell : ∀ k b, .send b ∈ s.threads k → b.type = .syncCall →
    ∃ x, b.out = some x ∧ CellOf cfg s.shared x b.src b.major b.seq
  msg_cell : ∀ m, m ∉ s.shared.msgList → (s.shared.pool m).type = some .syncCall →
    ∃ x major, (s.shared.pool m).aux = .ipcReturn x ∧ (s.shared.pool m).major = some major ∧
      CellOf cfg s.shared x (s.shared.pool m).src major (s.shared.pool m).seq
  msg_pn : ∀ m, m ∉ s.shared.msgList → (s.shared.pool m).type = some .asyncCall →
    (s.shared.pool m).aux = .null ∨ ∃ p, (s.shared.pool m).aux = .pn p
  msg_major : ∀ m, m ∉ s.shared.msgList → ∃ major, (s.shared.pool m).major = some major
  linked_mem : ∀ major, ∀ e ∈ s.shared.callList major,
    .linked major e (s.shared.pool e.msg).seq ∈ s.shared.trace

variable {cfg : Config ι σ} {s t : State ι σ} {i : ι} {c : Cmd ι σ} {a : Choice ι σ}
  {rest cs : List (Cmd ι σ)} {sh sh' : Shared ι σ} {m d : MsgId} {x : CellId}

theorem CellOf.kept {src : Source ι} {major : Major} {seq : Uint16}
    (h : CellOf cfg sh x src major seq) (he : Effect cfg i c a sh sh' cs) :
    CellOf cfg sh' x src major seq := by
  have hsame := he.sameCall h.lt
  exact ⟨hsame.lt, hsame.caller_eq ▸ h.src_eq, hsame.major_eq.trans h.major_eq,
    hsame.seq_eq.trans h.seq_eq⟩

/-- A new call has a new cell. -/
theorem cell_of_callApi {f : Api ι σ} {b : SendArgs ι σ} (hb : .send b ∈ (callApi cfg i sh f).2)
    (htype : b.type = .syncCall) :
    ∃ x, b.out = some x ∧ CellOf cfg (callApi cfg i sh f).1 x b.src b.major b.seq := by
  cases f with
  | mblueRemoteCall major minor input =>
    have hcell : (sh.getSequence.newCell i major
        (mblueMessageGetSequence sh.sequence)).cells sh.ncells =
          ⟨none, i, major, mblueMessageGetSequence sh.sequence, [], none, none, false⟩ :=
      Function.update_self _ _ _
    simp only [callApi, List.mem_cons, Cmd.send.injEq, reduceCtorEq, List.not_mem_nil,
      or_false] at hb
    subst hb
    exact ⟨sh.ncells, rfl, Nat.lt_succ_self _,
      congrArg cfg.getCurrentContext (congrArg Cell.caller hcell).symm,
      congrArg Cell.major hcell, congrArg Cell.seq hcell⟩
  | _ =>
    cases List.mem_singleton.1 hb
    cases htype

namespace Formed

/-! ### One step -/

theorem send_cell_step (h : Formed cfg s) (hc : s.threads i = c :: rest)
    (he : Effect cfg i c a s.shared sh' cs) :
    ∀ k b, .send b ∈ Function.update s.threads i (cs ++ rest) k → b.type = .syncCall →
      ∃ x, b.out = some x ∧ CellOf cfg sh' x b.src b.major b.seq := by
  intro k b hb htype
  rcases mem_expand_iff.1 hb with ⟨-, hnew⟩ | hold
  · rcases he.send_origin hnew with ⟨u, f, rfl, rfl, hmem, rfl⟩ | ⟨-, -, hreturn⟩
    · exact cell_of_callApi hmem htype
    · cases hreturn.symm.trans htype
  · obtain ⟨x, hout, hcell⟩ := h.send_cell k b (mem_of_mem_rest hc hold) htype
    exact ⟨x, hout, hcell.kept he⟩

theorem msg_cell_step (h : Formed cfg s) (hc : s.threads i = c :: rest)
    (he : Effect cfg i c a s.shared sh' cs) :
    ∀ m, m ∉ sh'.msgList → (sh'.pool m).type = some .syncCall →
      ∃ x major, (sh'.pool m).aux = .ipcReturn x ∧ (sh'.pool m).major = some major ∧
        CellOf cfg sh' x (sh'.pool m).src major (sh'.pool m).seq := by
  have hmove := move_of_effect he
  intro m hm htype
  rcases hmove.origin hm with hold | ⟨⟨b, rfl, hpool⟩ | ⟨n, ms, subs, rfl, hpool⟩, -⟩
  · have hheader := hmove.header_eq hold
    rw [Message.type_eq hheader] at htype
    obtain ⟨x, major, haux, hmajor, hcell⟩ := h.msg_cell m hold htype
    rw [Message.aux_eq hheader, Message.major_eq hheader, Message.src_eq hheader,
      Message.seq_eq hheader]
    exact ⟨x, major, haux, hmajor, hcell.kept he⟩
  · have hb : b.type = .syncCall := by
      rw [hpool, type_initMessage] at htype
      exact Option.some.inj htype
    obtain ⟨x, hout, hcell⟩ := h.send_cell i b (Good.mem_head hc) hb
    have haux : (initMessage cfg b).aux = .ipcReturn x := by
      show b.aux = _
      rw [SendArgs.aux, hb, hout]
      rfl
    rw [hpool]
    exact ⟨x, b.major, haux, getMajor_mkCode _ _ _, hcell.kept he⟩
  · -- a replica is a signal
    have hsignal : (sh'.pool m).type = some .signal := by
      rw [hpool]
      exact (h.knows i _ (Good.mem_head hc)).2.1
    cases hsignal.symm.trans htype

theorem msg_pn_step (h : Formed cfg s) (hc : s.threads i = c :: rest)
    (hmove : Move cfg i c s.shared sh' cs) :
    ∀ m, m ∉ sh'.msgList → (sh'.pool m).type = some .asyncCall →
      (sh'.pool m).aux = .null ∨ ∃ p, (sh'.pool m).aux = .pn p := by
  intro m hm htype
  rcases hmove.origin hm with hold | ⟨⟨b, rfl, hpool⟩ | ⟨n, ms, subs, rfl, hpool⟩, -⟩
  · have hheader := hmove.header_eq hold
    rw [Message.type_eq hheader] at htype
    rw [Message.aux_eq hheader]
    exact h.msg_pn m hold htype
  · have hb : b.type = .asyncCall := by
      rw [hpool, type_initMessage] at htype
      exact Option.some.inj htype
    have haux : (sh'.pool m).aux = b.pn.elim .null .pn := by
      rw [hpool]
      show b.aux = _
      rw [SendArgs.aux, hb]
    rw [haux]
    cases b.pn with
    | none => exact .inl rfl
    | some p => exact .inr ⟨p, rfl⟩
  · have hsignal : (sh'.pool m).type = some .signal := by
      rw [hpool]
      exact (h.knows i _ (Good.mem_head hc)).2.1
    cases hsignal.symm.trans htype

theorem msg_major_step (h : Formed cfg s) (hc : s.threads i = c :: rest)
    (hmove : Move cfg i c s.shared sh' cs) :
    ∀ m, m ∉ sh'.msgList → ∃ major, (sh'.pool m).major = some major := by
  intro m hm
  rcases hmove.origin hm with hold | ⟨⟨b, rfl, hpool⟩ | ⟨n, ms, subs, rfl, hpool⟩, -⟩
  · rw [Message.major_eq (hmove.header_eq hold)]
    exact h.msg_major m hold
  · rw [hpool]
    exact ⟨b.major, getMajor_mkCode _ _ _⟩
  · rw [hpool]
    exact h.msg_major n (h.not_free (Good.mem_head hc) rfl)

theorem linked_mem_step (h : Formed cfg s) (hc : s.threads i = c :: rest)
    (he : Effect cfg i c a s.shared sh' cs) :
    ∀ major, ∀ e ∈ sh'.callList major, .linked major e (sh'.pool e.msg).seq ∈ sh'.trace := by
  have hmove := move_of_effect he
  intro major e hmem
  by_cases hold : e ∈ s.shared.callList major
  · rw [Message.seq_eq (hmove.header_eq (h.not_free_of_entry hold))]
    exact he.trace_prefix.subset (h.linked_mem major e hold)
  · obtain ⟨rfl, hmajor, hentry⟩ := (hmove.entry_origin hmem).resolve_left hold
    have hfree : e.msg ∉ s.shared.msgList := h.not_free (Good.mem_head hc) rfl
    rw [Message.seq_eq (hmove.header_eq hfree)]
    cases he with
    | callLinked hmajor' hnode hctx hentry' =>
      obtain rfl := Option.some.inj (hmajor.symm.trans hmajor')
      obtain rfl := Option.some.inj (hentry.symm.trans hentry')
      exact List.mem_append_right _ (List.mem_singleton_self _)
    | callNoSegment | callNoEntry | callNoMemory => exact absurd hmem hold

/-- **The step lemma.** -/
theorem step (h : Formed cfg s) {l : ι × Choice ι σ} (hok : AtHead (Prompt cfg) s l)
    (hstep : (fused cfg).step s l = some t) : Formed cfg t := by
  have hpending := h.toPending.step hok hstep
  obtain ⟨i, a⟩ := l
  obtain ⟨c, rest, sh', cs, hc, he, rfl⟩ := effect_of_step hstep
  exact ⟨hpending, h.send_cell_step hc he, h.msg_cell_step hc he,
    h.msg_pn_step hc (move_of_effect he), h.msg_major_step hc (move_of_effect he),
    h.linked_mem_step hc he⟩

theorem initial (cfg : Config ι σ) : Formed cfg (Mblue.initial cfg) := by
  refine ⟨Pending.initial cfg, fun k b hb ↦ ?_, fun m hm ↦ absurd (List.mem_finRange m) hm,
    fun m hm ↦ absurd (List.mem_finRange m) hm, fun m hm ↦ absurd (List.mem_finRange m) hm,
    fun major e he ↦ absurd he List.not_mem_nil⟩
  unfold Mblue.initial at hb
  dsimp only at hb
  split at hb <;> simp at hb

theorem of_run (h : Run (fused cfg).step (AtHead (Prompt cfg)) (Mblue.initial cfg) s) :
    Formed cfg s :=
  h.invariant (initial cfg) fun ha hok hstep ↦ ha.step hok hstep

end Formed

/-! ### The answer to a return -/

/-- What the bus has to do while it answers a return, and what a notifier has. -/
def Cmd.ofAnswer : Cmd ι σ → Bool
  | .send _ | .post _ _ | .semPost _ | .syncCheck _ _ | .tpend _ _ | .remoteReturn _
  | .userCode .log | .userCode (.notify _ _) | .tpost _ _ | .freeNotifier _ | .complete _ _
  | .unlink _ _ | .release _ => true
  | _ => false

theorem ofAnswer_of_runCmd (h : runCmd cfg i c a sh = some (sh', cs)) (hc : c.ofAnswer = true) :
    ∀ d ∈ cs, d.ofAnswer = true := by
  by_cases hend : (∃ major e, c = .complete major e) ∨ ∃ major e, c = .unlink major e
  · rcases hend with ⟨major, e, rfl⟩ | ⟨major, e, rfl⟩
    all_goals
      obtain ⟨-, rfl⟩ := Prod.mk.inj (Option.some.inj h)
      simp [Cmd.ofAnswer]
  · rw [not_or] at hend
    have he := effect_of_runFused ((runFused_of_runCmd (fun major e heq ↦ hend.1 ⟨major, e, heq⟩)
      fun major e heq ↦ hend.2 ⟨major, e, heq⟩).trans h)
    cases he with
    | userCall hmay =>
      rw [List.forall_mem_append, List.forall_mem_singleton]
      refine ⟨fun d hd ↦ ?_, hc⟩
      rcases cmd_of_callApi hd with ⟨b, rfl⟩ | ⟨o, rfl⟩ <;> rfl
    | userMalloc | userFailed =>
      rw [List.forall_mem_singleton]
      exact hc
    | _ =>
      revert hc
      simp [Cmd.ofAnswer]

/-- The bus has not come back to what it is to do after the return. -/
def Busy (cfg : Config ι σ) (rest : List (Cmd ι σ)) (s : State ι σ) (l : ι × Choice ι σ) : Prop :=
  AtHead (Prompt cfg) s l ∧ rest.length < (s.threads cfg.busTask).length

/-- The bus answers a return: what has happened to the calls and what it has still to do to them
together are `E`, and its call lists are going to be `L`. -/
structure Closing (cfg : Config ι σ) (rest : List (Cmd ι σ)) (E : List (Event ι σ))
    (L : Major → List PendingCall) (n : ℕ) (out : CellId → Option Word) (s : State ι σ) : Prop where
  todo : ∃ cs, s.threads cfg.busTask = cs ++ rest ∧ (∀ c ∈ cs, c.ofAnswer = true) ∧
    callEvents s.shared ++ cs.flatMap Cmd.due = E ∧ settleAll cs s.shared.callList = L
  ncells_le : n ≤ s.shared.ncells
  out_eq : ∀ x < n, (s.shared.cells x).out = out x

/-- The calls are the bus's. -/
theorem Split.answers_eq_false (h : Split cfg s) (hc : s.threads i = c :: rest)
    (hi : i ≠ cfg.busTask) :
    c.answers = false ∧ (∀ m, c ≠ .busCall m) ∧ ∀ d, c ≠ .busCallReturn d := by
  have hmem : c ∈ (fuse cfg s).threads i := by
    rcases fuse_cases cfg s with ⟨major, e, tail, hbus⟩ | hfuse
    · rw [Split.threads_fuse hbus hi, hc]
      exact List.mem_cons_self
    · rw [hfuse, hc]
      exact List.mem_cons_self
  have hlists := h.not_usesCallList hmem hi
  have hknows := h.good.knows i c hmem
  cases c with
  | busCall | busCallReturn | complete | unlink => cases hlists
  | tpost | freeNotifier => exact absurd hknows hi
  | _ => exact ⟨rfl, fun m heq ↦ (by cases heq), fun d heq ↦ (by cases heq)⟩

variable {E : List (Event ι σ)} {L : Major → List PendingCall} {n : ℕ} {out : CellId → Option Word}

/-- **The accounting**, one step on. -/
theorem Closing.step (h : Closing cfg rest E L n out s) (hsplit : Split cfg s)
    {l : ι × Choice ι σ} (hok : Busy cfg rest s l) (hstep : (system cfg).step s l = some t) :
    Closing cfg rest E L n out t := by
  obtain ⟨i, a⟩ := l
  obtain ⟨c, tail, sh', cs, hc, hrun, rfl⟩ := (system cfg).step_eq_some_iff.1 hstep
  have hrun : runCmd cfg i c a s.shared = some (sh', cs) := hrun
  obtain ⟨todo, hbus, hcalm, hevents, hlists⟩ := h.todo
  by_cases hi : i = cfg.busTask
  · subst hi
    cases todo with
    | nil =>
      -- the bus is done with the return, and this run does not go further
      have hlt := hok.2
      rw [hbus] at hlt
      exact absurd hlt (lt_irrefl _)
    | cons c' todo =>
      obtain ⟨rfl, rfl⟩ := List.cons.inj (hc.symm.trans hbus)
      have hcalmc := hcalm c List.mem_cons_self
      have hcall : ∀ m, c ≠ .busCall m := fun m heq ↦ by
        rw [heq] at hcalmc
        cases hcalmc
      have hreturn : ∀ d, c ≠ .busCallReturn d := fun d heq ↦ by
        rw [heq] at hcalmc
        cases hcalmc
      have hanswer := answering_of_runCmd hrun hcall hreturn
      refine ⟨⟨cs ++ todo, ?_, ?_, ?_, ?_⟩, h.ncells_le.trans hanswer.ncells_le, fun x hx ↦ ?_⟩
      · exact (Function.update_self _ _ _).trans (List.append_assoc _ _ _).symm
      · exact List.forall_mem_append.2 ⟨ofAnswer_of_runCmd hrun hcalmc,
          fun d hd ↦ hcalm d (List.mem_cons_of_mem c hd)⟩
      · rw [List.flatMap_append, ← List.append_assoc, hanswer.events_eq, List.append_assoc]
        exact hevents
      · rw [settleAll_append, hanswer.settle_eq]
        exact hlists
      · exact (hanswer.out_eq x (hx.trans_le h.ncells_le)).trans (h.out_eq x hx)
  · -- another thread touches neither a pending call nor a return cell
    obtain ⟨hquiet, hcall, hreturn⟩ := hsplit.answers_eq_false hc hi
    have hanswer := answering_of_runCmd hrun hcall hreturn
    have hnew := answers_eq_false_of_runCmd hrun hreturn fun major e heq ↦ by
      rw [heq] at hquiet
      cases hquiet
    have hevents' := hanswer.events_eq
    rw [flatMap_due_eq_nil hnew, Cmd.due_eq_nil hquiet, List.append_nil,
      List.append_nil] at hevents'
    have hlists' := hanswer.settle_eq
    rw [settleAll_eq hnew, Cmd.settle_eq hquiet] at hlists'
    refine ⟨⟨todo, (Function.update_of_ne (Ne.symm hi) _ _).trans hbus, hcalm, ?_, ?_⟩,
      h.ncells_le.trans hanswer.ncells_le, fun x hx ↦ ?_⟩
    · rw [hevents']
      exact hevents
    · rw [hlists']
      exact hlists
    · exact (hanswer.out_eq x (hx.trans_le h.ncells_le)).trans (h.out_eq x hx)

/-- The accounting, to the end of a run. -/
theorem Closing.of_run (h : Closing cfg rest E L n out s)
    (hs : Run (system cfg).step (AtHead (Prompt cfg)) (initial cfg) s)
    (ht : Run (system cfg).step (Busy cfg rest) s t) : Closing cfg rest E L n out t :=
  ht.invariant_of (I := Split cfg) (fun hr ↦ (pending_of_run (hs.trans (hr.mono And.left))).1) h
    fun hsplit ha hok hstep ↦ ha.step hsplit hok hstep

/-! ### The answer gets to its end -/

/-- What the bus has left to do when it has found an entry: the notifier can return, and nothing
else is in its way. -/
def Cmd.ends : Cmd ι σ → Bool
  | .userCode .log | .userCode (.notify _ _) | .tpost _ _ | .freeNotifier _ | .complete _ _
  | .unlink _ _ | .release _ => true
  | _ => false

variable (cfg i) in
/-- Such a command is done in one step, but for the release of a request, which the `list_del`
follows. -/
theorem Cmd.run_of_ends (h : c.ends = true) (sh : Shared ι σ) :
    Prompt cfg i c (.finish 0) sh ∧ ∃ sh' cs, runCmd cfg i c (.finish 0) sh = some (sh', cs) ∧
      (cs = [] ∨ ∃ major e, cs = [.unlink major e]) := by
  have hself : (∀ m, c ≠ .busCall m) → NoSelf cfg i c (.finish 0) sh :=
    fun hne m _ heq ↦ absurd heq (hne m)
  cases c with
  | complete major e =>
    exact ⟨⟨hself fun _ heq ↦ (by cases heq), rfl⟩, _, _, rfl, .inr ⟨major, e, rfl⟩⟩
  | userCode k =>
    cases k with
    | log | notify => exact ⟨⟨hself fun _ heq ↦ (by cases heq), rfl⟩, _, _, rfl, .inl rfl⟩
    | app | signal | service => cases h
  | tpost | freeNotifier | unlink | release =>
    exact ⟨⟨hself fun _ heq ↦ (by cases heq), rfl⟩, _, _, rfl, .inl rfl⟩
  | _ => cases h

theorem run_busy {todo : List (Cmd ι σ)} (hends : c.ends = true)
    (hc : s.threads cfg.busTask = c :: (todo ++ rest)) :
    ∃ u cs, Run (system cfg).step (Busy cfg rest) s u ∧
      u.threads cfg.busTask = cs ++ (todo ++ rest) ∧
        (cs = [] ∨ ∃ major e, cs = [.unlink major e]) := by
  obtain ⟨hok, sh', cs, hrun, hcs⟩ := Cmd.run_of_ends cfg cfg.busTask hends s.shared
  refine ⟨_, cs, .single ⟨AtHead.of_head hc hok, ?_⟩ ((system cfg).step_eq_some_iff.2
    ⟨c, todo ++ rest, sh', cs, hc, hrun, rfl⟩), Function.update_self _ _ _, hcs⟩
  rw [hc, List.length_cons, List.length_append]
  omega

/-- **The answer gets to its end**, if only because the bus goes on and the notifier returns. -/
theorem exists_finished {todo : List (Cmd ι σ)} (hends : ∀ c ∈ todo, c.ends = true)
    (hc : s.threads cfg.busTask = todo ++ rest) :
    ∃ t, Run (system cfg).step (Busy cfg rest) s t ∧ t.threads cfg.busTask = rest := by
  induction todo generalizing s with
  | nil => exact ⟨s, .refl, hc⟩
  | cons c todo ih =>
    have ih {s : State ι σ} := ih (s := s) fun d hd ↦ hends d (List.mem_cons_of_mem c hd)
    obtain ⟨u, cs, hu, huthreads, rfl | ⟨major, e, rfl⟩⟩ :=
      run_busy (hends c List.mem_cons_self) hc
    · obtain ⟨t, ht, htthreads⟩ := ih huthreads
      exact ⟨t, hu.trans ht, htthreads⟩
    · -- the `list_del` after the release of the request
      obtain ⟨v, hv, hvthreads⟩ : ∃ v, Run (system cfg).step (Busy cfg rest) u v ∧
          v.threads cfg.busTask = todo ++ rest := by
        refine ⟨_, .single (l := (cfg.busTask, .go))
          ⟨AtHead.of_head huthreads ⟨fun _ _ heq ↦ (by cases heq), rfl⟩, ?_⟩
          ((system cfg).step_eq_some_iff.2
            ⟨_, _, u.shared.unlink major e, [], huthreads, rfl, rfl⟩), Function.update_self _ _ _⟩
        rw [huthreads, List.singleton_append, List.length_cons, List.length_append]
        omega
      obtain ⟨t, ht, htthreads⟩ := ih hvthreads
      exact ⟨t, (hu.trans hv).trans ht, htthreads⟩

/-! ### The property -/

/-- What the bus has done to the calls between two states. -/
structure Processed (s t : State ι σ) (E : List (Event ι σ)) (L : Major → List PendingCall)
    (out : CellId → Option Word) : Prop where
  events_eq : callEvents t.shared = callEvents s.shared ++ E
  callList_eq : t.shared.callList = L
  out_eq : ∀ x < s.shared.ncells, (t.shared.cells x).out = out x

/-- The bus can get to the end of what it does with the return, and this is what it has done then,
whatever the other threads and the notifier have done meanwhile. -/
structure Processes (cfg : Config ι σ) (s : State ι σ) (rest : List (Cmd ι σ))
    (E : List (Event ι σ)) (L : Major → List PendingCall) (out : CellId → Option Word) : Prop where
  finishes : ∃ t, Run (system cfg).step (Busy cfg rest) s t ∧ t.threads cfg.busTask = rest
  processed : ∀ a u t, (system cfg).step s (cfg.busTask, a) = some u →
    Run (system cfg).step (Busy cfg rest) u t → t.threads cfg.busTask = rest →
      Processed s t E L out

/-- What a return does to the call of an entry: the events, and the return cells afterwards. -/
inductive Answer (cfg : Config ι σ) (sh : Shared ι σ) (d : MsgId) (major : Major)
    (e : PendingCall) : List (Event ι σ) → (CellId → Option Word) → Prop
  /-- The cell of the call is written, and the task that called is posted. -/
  | sync {x : CellId} {k : ι} (htype : e.callType = .syncCall)
      (hsrc : (sh.pool e.msg).src = .task k) (haux : (sh.pool e.msg).aux = .ipcReturn x)
      (hcell : CellOf cfg sh x (.task k) major (sh.pool d).seq) :
      Answer cfg sh d major e
        [.wrote x (sh.pool d).smartPayload, .posted k x, .unlinked major e]
        (Function.update (fun y ↦ (sh.cells y).out) x (some (sh.pool d).smartPayload))
  /-- The notifier of the call is called and freed. -/
  | async {p : NotifierId} (htype : e.callType = .asyncCall) (haux : (sh.pool e.msg).aux = .pn p) :
      Answer cfg sh d major e
        [.notified p (sh.pool d).smartPayload, .notifierFreed p, .unlinked major e]
        fun y ↦ (sh.cells y).out
  /-- A thread that is no task has called, and nobody is told. -/
  | noTask (htype : e.callType = .syncCall) (hsrc : (sh.pool e.msg).src = .null) :
      Answer cfg sh d major e [.unlinked major e] fun y ↦ (sh.cells y).out

/-- **What `bus_call_return` does with a return.** -/
inductive ReturnMatched (cfg : Config ι σ) (s : State ι σ) (d : MsgId) (rest : List (Cmd ι σ)) :
    Prop
  /-- One pending call has the return's numbers. It is answered, and its entry taken out. -/
  | completes {major : Major} {e : PendingCall} {E : List (Event ι σ)} {out : CellId → Option Word}
      (hmajor : (s.shared.pool d).major = some major)
      (hmem : e ∈ s.shared.callList major)
      (hsole : ∀ e' ∈ s.shared.callList major,
        entrySeq s.shared e' = (s.shared.pool d).seq ↔ e' = e)
      (hlinked : .linked major e (s.shared.pool d).seq ∈ s.shared.trace)
      (hanswer : Answer cfg s.shared d major e E out)
      (hprocesses : Processes cfg s rest E (Function.update s.shared.callList major
        ((s.shared.callList major).erase e)) out)
  /-- No pending call has. The return is released, and logged if none is pending at all. -/
  | releases {major : Major} (hmajor : (s.shared.pool d).major = some major)
      (hno : ∀ e ∈ s.shared.callList major, entrySeq s.shared e ≠ (s.shared.pool d).seq)
      (hstep : ∀ a, (system cfg).step s (cfg.busTask, a) = some ⟨s.shared,
        Function.update s.threads cfg.busTask
          ((if s.shared.callList major = [] then [.userCode .log] else []) ++ .release d :: rest)⟩)

/-! ### The result -/

theorem Cmd.ofAnswer_of_ends (h : c.ends = true) : c.ofAnswer = true := by
  cases c with
  | userCode k =>
    cases k with
    | log | notify => rfl
    | app | signal | service => cases h
  | tpost | freeNotifier | complete | unlink | release => rfl
  | _ => cases h

/-- A return is processed in the way its first step begins. -/
theorem Processes.of_runCmd {todo : List (Cmd ι σ)}
    (hs : Run (system cfg).step (AtHead (Prompt cfg)) (initial cfg) s)
    (hc : s.threads cfg.busTask = .busCallReturn d :: rest)
    (hrun : ∀ a, runCmd cfg cfg.busTask (.busCallReturn d) a s.shared = some (sh', todo))
    (hends : ∀ c ∈ todo, c.ends = true)
    (hevents : callEvents sh' ++ todo.flatMap Cmd.due = callEvents s.shared ++ E)
    (hlists : settleAll todo sh'.callList = L) (hncells : sh'.ncells = s.shared.ncells)
    (hout : ∀ x, (sh'.cells x).out = out x) : Processes cfg s rest E L out := by
  have hok : ∀ a, AtHead (Prompt cfg) s (cfg.busTask, a) := fun a ↦
    AtHead.of_head hc ⟨fun _ _ heq ↦ (by cases heq), rfl⟩
  have hstep : ∀ a, (system cfg).step s (cfg.busTask, a) =
      some ⟨sh', Function.update s.threads cfg.busTask (todo ++ rest)⟩ := fun a ↦
    (system cfg).step_eq_some_iff.2 ⟨_, _, _, _, hc, hrun a, rfl⟩
  refine ⟨?_, fun a u t hu ht hrest ↦ ?_⟩
  · obtain ⟨t, ht, hrest⟩ : ∃ t, Run (system cfg).step (Busy cfg rest)
        ⟨sh', Function.update s.threads cfg.busTask (todo ++ rest)⟩ t ∧
          t.threads cfg.busTask = rest :=
      exists_finished hends (Function.update_self _ _ _)
    refine ⟨t, (Run.single ⟨hok .go, ?_⟩ (hstep .go)).trans ht, hrest⟩
    rw [hc, List.length_cons]
    exact Nat.lt_succ_self _
  · obtain rfl := Option.some.inj ((hstep a).symm.trans hu)
    have hfirst : Closing cfg rest (callEvents s.shared ++ E) L s.shared.ncells out
        ⟨sh', Function.update s.threads cfg.busTask (todo ++ rest)⟩ :=
      ⟨⟨todo, Function.update_self _ _ _, fun c hmem ↦ Cmd.ofAnswer_of_ends (hends c hmem), hevents,
        hlists⟩, hncells.ge, fun x _ ↦ hout x⟩
    obtain ⟨⟨left, hleft, -, hevents', hlists'⟩, -, hout'⟩ :=
      hfirst.of_run (.tail hs (hok a) hu) ht
    obtain rfl : left = [] := List.append_left_eq_self.1 (hleft.symm.trans hrest)
    exact ⟨(List.append_nil _).symm.trans hevents', hlists', hout'⟩

section Found

variable {major : Major} {e : PendingCall}

/-- A return that finds no pending call with its numbers. -/
theorem runBusCallReturn_of_not_found (hmajor : (sh.pool d).major = some major)
    (hno : ∀ e ∈ sh.callList major, entrySeq sh e ≠ (sh.pool d).seq) :
    runBusCallReturn d sh =
      some (sh, (if sh.callList major = [] then [.userCode .log] else []) ++ [.release d]) := by
  have hfind : (sh.callList major).find? (fun e ↦ (sh.pool e.msg).seq == (sh.pool d).seq) = none :=
    KeyedList.lookup_eq_none_iff.2 hno
  rw [runBusCallReturn, hmajor, Option.bind_some, hfind]
  by_cases hempty : sh.callList major = []
  · rw [if_pos hempty, if_pos hempty]
    rfl
  · rw [if_neg hempty, if_neg hempty]
    rfl

variable (hmajor : (sh.pool d).major = some major) (hmem : e ∈ sh.callList major)
  (hfind : KeyedList.lookup (entrySeq sh) (sh.pool d).seq (sh.callList major) = some e)

include hmajor hmem hfind

/-- A return that finds the synchronous call of a task. -/
theorem runBusCallReturn_of_sync {k : ι} (htype : e.callType = .syncCall)
    (hsrc : (sh.pool e.msg).src = .task k) (haux : (sh.pool e.msg).aux = .ipcReturn x) :
    runBusCallReturn d sh =
      some ((sh.writeCell x major (sh.pool d).seq (sh.pool d).smartPayload).log
        (.wrote x (sh.pool d).smartPayload), [.tpost k x, .complete major e, .release d]) := by
  have hfound : (sh.callList major).find? (fun e ↦ (sh.pool e.msg).seq == (sh.pool d).seq) =
    some e := hfind
  rw [runBusCallReturn, hmajor, Option.bind_some, if_neg (List.ne_nil_of_mem hmem), hfound]
  simp only [htype, hsrc, haux]

/-- A return that finds the synchronous call of a thread that is no task. -/
theorem runBusCallReturn_of_noTask (htype : e.callType = .syncCall)
    (hsrc : (sh.pool e.msg).src = .null) :
    runBusCallReturn d sh = some (sh, [.complete major e, .release d]) := by
  have hfound : (sh.callList major).find? (fun e ↦ (sh.pool e.msg).seq == (sh.pool d).seq) =
    some e := hfind
  rw [runBusCallReturn, hmajor, Option.bind_some, if_neg (List.ne_nil_of_mem hmem), hfound]
  simp only [htype, hsrc]

/-- A return that finds an asynchronous call. -/
theorem runBusCallReturn_of_async {p : NotifierId} (htype : e.callType = .asyncCall)
    (hnotifier : e.notifier = some p) :
    runBusCallReturn d sh = some (sh.log (.notified p (sh.pool d).smartPayload),
      [.userCode (.notify p (sh.pool d).smartPayload), .freeNotifier p, .complete major e,
        .release d]) := by
  have hfound : (sh.callList major).find? (fun e ↦ (sh.pool e.msg).seq == (sh.pool d).seq) =
    some e := hfind
  rw [runBusCallReturn, hmajor, Option.bind_some, if_neg (List.ne_nil_of_mem hmem), hfound]
  simp only [htype, hnotifier, Option.map_some]

end Found

/-- **The answer to the call of an entry.** -/
theorem Formed.exists_answer {major : Major} {e : PendingCall} (h : Formed cfg s)
    (hs : Run (system cfg).step (AtHead (Prompt cfg)) (Mblue.initial cfg) s)
    (hc : s.threads cfg.busTask = .busCallReturn d :: rest)
    (hmajor : (s.shared.pool d).major = some major) (hmem : e ∈ s.shared.callList major)
    (hfind : KeyedList.lookup (entrySeq s.shared) (s.shared.pool d).seq (s.shared.callList major) =
      some e) :
    ∃ E out, Answer cfg s.shared d major e E out ∧ Processes cfg s rest E
      (Function.update s.shared.callList major ((s.shared.callList major).erase e)) out := by
  obtain ⟨hemajor, hcall, hentry⟩ := h.linked major e hmem
  have hfree := h.not_free_of_entry hmem
  have hseq : entrySeq s.shared e = (s.shared.pool d).seq := KeyedList.key_of_lookup hfind
  cases htype : (s.shared.pool e.msg).type with
  | none =>
    rw [pendingCall, htype] at hentry
    cases hentry
  | some type =>
    cases type with
    | syncCall =>
      obtain ⟨x, major', haux, hmajor', hcell⟩ := h.msg_cell e.msg hfree htype
      obtain rfl := Option.some.inj (hemajor.symm.trans hmajor')
      have hcallType : e.callType = .syncCall := by
        rw [pendingCall, htype] at hentry
        exact (congrArg PendingCall.callType (Option.some.inj hentry)).symm
      cases hsrc : (s.shared.pool e.msg).src with
      | null =>
        exact ⟨_, _, .noTask hcallType hsrc, .of_runCmd hs hc
          (fun _ ↦ runBusCallReturn_of_noTask hmajor hmem hfind hcallType hsrc)
          (by simp [Cmd.ends]) rfl rfl rfl fun _ ↦ rfl⟩
      | task k =>
        have hcell : CellOf cfg s.shared x (.task k) major (s.shared.pool d).seq :=
          hsrc ▸ hseq ▸ hcell
        refine ⟨_, _, .sync hcallType hsrc haux hcell, .of_runCmd hs hc
          (fun _ ↦ runBusCallReturn_of_sync hmajor hmem hfind hcallType hsrc haux)
          (by simp [Cmd.ends]) ?_ rfl rfl fun y ↦ ?_⟩
        · show (s.shared.trace ++ [_]).filter Event.ofCall ++ _ = _
          rw [List.filter_append, List.append_assoc]
          rfl
        · exact Function.apply_update (fun _ ↦ Cell.out) s.shared.cells x _ y
      | system w =>
        -- the source of a request is the thread that calls
        have hsource := hcell.src_eq
        rw [hsrc, Config.getCurrentContext] at hsource
        split at hsource <;> cases hsource
    | asyncCall =>
      obtain hnull | ⟨p, hpn⟩ := h.msg_pn e.msg hfree htype
      · rw [pendingCall, htype, hnull] at hentry
        cases hentry
      · rw [pendingCall, htype, hpn] at hentry
        have heq := Option.some.inj hentry
        have hcallType : e.callType = .asyncCall := (congrArg PendingCall.callType heq).symm
        refine ⟨_, _, .async hcallType hpn, .of_runCmd hs hc
          (fun _ ↦ runBusCallReturn_of_async hmajor hmem hfind hcallType
            (congrArg PendingCall.notifier heq).symm)
          (by simp [Cmd.ends]) ?_ rfl rfl fun _ ↦ rfl⟩
        show (s.shared.trace ++ [_]).filter Event.ofCall ++ _ = _
        rw [List.filter_append, List.append_assoc]
        rfl
    | _ =>
      rw [Message.isCall_of_type htype] at hcall
      cases hcall

/-- A state reached while calls are answered in time. -/
theorem formed_of_run (h : Run (system cfg).step (AtHead (Prompt cfg)) (initial cfg) s) :
    Formed cfg (fuse cfg s) :=
  Formed.of_run (Split.of_run h Prompt.unseen fun hr ↦ (Pending.of_run hr).toGood).2

/-- Task `2` calls the log service, whose task answers. -/
def matchedCall : List (Fin 3 × Choice (Fin 3) Bool) :=
  (2, .api (.mblueRemoteCall mblueLogService 0 0)) :: List.replicate 4 (2, .go) ++
    (0, .finish 0) :: List.replicate 5 (0, .go) ++
    (1, .api (.ipcReturn mblueLogService 1 42)) :: List.replicate 4 (1, .go) ++
    List.replicate 2 (0, .go)

/-- Task `2` sends a return to the log service, which nobody has called. -/
def unaskedReturn : List (Fin 3 × Choice (Fin 3) Bool) :=
  (2, .api (.ipcReturn mblueLogService 1 42)) :: List.replicate 4 (2, .go) ++
    (0, .finish 0) :: List.replicate 2 (0, .go)

/-- The bus processes it: `LOGGER` makes a call, and the return is released. -/
def loggedReturn : List (Fin 3 × Choice (Fin 3) Bool) :=
  (0, .go) :: (0, .api (.mblueRemoteCallAsync mblueLogService 0 0)) :: List.replicate 4 (0, .go) ++
    [(0, .finish 0), (0, .go)]

/-- Task `2` calls the bus under its own number, and the bus links the request twice. -/
def selfCall : List (Fin 3 × Choice (Fin 3) Bool) :=
  (2, .api (.mblueRemoteCall mblueBus 0 0)) :: List.replicate 4 (2, .go) ++
    (0, .finish 0) :: List.replicate 8 (0, .go)

end Mblue
