import Mblue.Library.KeyedList
import Mblue.System.Forwarding
import Mblue.System.HeapEvents

/-!
# The numbers of the pending calls

A pending call is found again by its sequence number, and sequence numbers come from one counter of
15 bits that every message draws from. So the number of a request says which draw it was only while
fewer than 32768 numbers have been drawn since. `Prompt` is this condition on the calls that have an
entry, and `Pending` what it gives: all requests that are in the system have draws of their own, and
the entries of the call lists have numbers of their own (`Pending.distinct`).
-/

set_option linter.unusedSectionVars false

namespace Mblue

variable {ι σ : Type}

/-- The function draws a sequence number. -/
def Api.draws : Api ι σ → Bool
  | .ipcReturn _ _ _ => false
  | _ => true

/-- The draw of a request that a command sends. -/
def Cmd.request? : Cmd ι σ → Option ℕ
  | .send b => if b.type.isCall then some b.draw else none
  | _ => none

theorem sequence_release [DecidableEq ι] (sh : Shared ι σ) (m : MsgId) :
    (sh.release m).sequence = sh.sequence := by
  unfold Shared.release
  dsimp only
  split <;> rfl

variable [DecidableEq ι] [DecidableEq σ]

/-! ### What draws a number -/

section Draws

variable {cfg : Config ι σ} {i : ι} {c : Cmd ι σ} {a : Choice ι σ} {sh sh' : Shared ι σ}
  {cs : List (Cmd ι σ)} {b : SendArgs ι σ}

/-- **Only user code draws numbers**, one at a time. -/
theorem Effect.counters (h : Effect cfg i c a sh sh' cs) :
    sh'.sequence = sh.sequence ∧ sh'.draws = sh.draws ∨
      sh'.sequence = mblueMessageGetSequence sh.sequence ∧ sh'.draws = sh.draws + 1 ∧
        ∃ k f, c = .userCode k ∧ a = .api f ∧ f.draws = true := by
  cases h with
  | userCall hmay =>
    rename_i k f
    cases f with
    | targetSignal source major minor dest data extra =>
      refine .inr ⟨?_, ?_, k, _, rfl, rfl, rfl⟩
      all_goals
        unfold callApi
        dsimp only
        split <;> rfl
    | ipcReturn major seq data => exact .inl ⟨rfl, rfl⟩
    | _ => exact .inr ⟨rfl, rfl, k, _, rfl, rfl, rfl⟩
  | sendDone halloc =>
    obtain ⟨_, -, rfl⟩ := alloc_eq_some halloc
    exact .inl ⟨rfl, rfl⟩
  | loopReplicated hctx halloc =>
    obtain ⟨_, -, rfl⟩ := alloc_eq_some halloc
    exact .inl ⟨rfl, rfl⟩
  | tpendTaken hsem =>
    rename_i t o d rest
    cases o <;> exact .inl ⟨rfl, rfl⟩
  | subscribeReleased | released =>
    exact .inl ⟨sequence_release sh _, (numbers_release sh _).1⟩
  | completed =>
    rename_i major e
    exact .inl ⟨sequence_release sh e.msg, (numbers_release sh e.msg).1⟩
  | _ => exact .inl ⟨rfl, rfl⟩

/-- A request that user code sends has the next number. -/
theorem request_of_callApi {f : Api ι σ} (hb : .send b ∈ (callApi cfg i sh f).2)
    (hcall : b.type.isCall = true) : b.draw = sh.draws + 1 ∧
      b.seq = mblueMessageGetSequence sh.sequence ∧ f.draws = true := by
  cases f with
  | mblueRemoteCall major minor input =>
    simp only [callApi, List.mem_cons, Cmd.send.injEq, reduceCtorEq, List.not_mem_nil,
      or_false] at hb
    subst hb
    exact ⟨rfl, rfl, rfl⟩
  | mblueRemoteCallAsync major minor input | sendAsyncCall major minor input =>
    cases List.mem_singleton.1 hb
    exact ⟨rfl, rfl, rfl⟩
  | _ =>
    cases List.mem_singleton.1 hb
    cases hcall

/-- **A new request** has the next number. -/
theorem Effect.request_origin (h : Effect cfg i c a sh sh' cs) (hb : .send b ∈ cs)
    (hcall : b.type.isCall = true) : b.draw = sh.draws + 1 ∧
      b.seq = mblueMessageGetSequence sh.sequence ∧
        ∃ k f, c = .userCode k ∧ a = .api f ∧ f.draws = true ∧
          cs = (callApi cfg i sh f).2 ++ [.userCode k] := by
  rcases h.send_origin hb with ⟨k, f, rfl, rfl, hmem, -⟩ | ⟨-, -, htype⟩
  · obtain ⟨hdraw, hseq, hdraws⟩ := request_of_callApi hmem hcall
    cases h with
    | userCall hmay => exact ⟨hdraw, hseq, k, f, rfl, rfl, hdraws, rfl⟩
  · rw [htype] at hcall
    cases hcall

/-- User code sends one request at a time. -/
theorem length_requests_callApi (cfg : Config ι σ) (i : ι) (sh : Shared ι σ) (f : Api ι σ) :
    ((callApi cfg i sh f).2.filterMap Cmd.request?).length ≤ 1 := by
  cases f with
  | mblueRemoteCall major minor input => exact le_rfl
  | _ => exact List.length_filterMap_le _ _

end Draws

/-! ### The condition -/

/-- A number is drawn or an entry is made while every call with an entry is younger than a round of
the counter. -/
def prompt (c : Cmd ι σ) (a : Choice ι σ) (sh : Shared ι σ) : Bool :=
  match c, a with
  | .userCode _, .api f => !f.draws ||
    decide (∀ major, ∀ e ∈ sh.callList major, sh.draws + 1 < (sh.pool e.msg).draw + 32768)
  | .busCall m, _ => decide (sh.draws < (sh.pool m).draw + 32768)
  | _, _ => true

/-- No request finds the bus under its own number, and calls are answered before the counter has
gone round. -/
def Prompt (cfg : Config ι σ) (i : ι) (c : Cmd ι σ) (a : Choice ι σ) (sh : Shared ι σ) : Prop :=
  NoSelf cfg i c a sh ∧ prompt c a sh = true

instance (cfg : Config ι σ) (i : ι) (c : Cmd ι σ) (a : Choice ι σ) (sh : Shared ι σ) :
    Decidable (Prompt cfg i c a sh) :=
  inferInstanceAs (Decidable (_ ∧ _))

/-! ### The invariant -/

section Invariant

variable [Fintype ι]

/-- The requests in the system have draws of their own, and their numbers are those of the draws. -/
structure Pending (cfg : Config ι σ) (s : State ι σ) : Prop extends Once cfg s where
  numbered : Numbered s
  sequence_eq : s.shared.sequence.val = s.shared.draws % 32768
  send_seq : ∀ k b, .send b ∈ s.threads k → b.type.isCall = true →
    b.seq.val = b.draw % 32768
  msg_seq : ∀ m, m ∉ s.shared.msgList → (s.shared.pool m).isCall = true →
    (s.shared.pool m).seq.val = (s.shared.pool m).draw % 32768
  sole_send : ∀ d, mentions Cmd.request? s.threads d ≤ 1
  apart : ∀ k b, .send b ∈ s.threads k → b.type.isCall = true →
    ∀ m, m ∉ s.shared.msgList → (s.shared.pool m).isCall = true → (s.shared.pool m).draw ≠ b.draw
  sole_msg : ∀ m n, m ∉ s.shared.msgList → n ∉ s.shared.msgList →
    (s.shared.pool m).isCall = true → (s.shared.pool n).isCall = true →
      (s.shared.pool m).draw = (s.shared.pool n).draw → m = n
  recent : ∀ major, ∀ e ∈ s.shared.callList major,
    s.shared.draws < (s.shared.pool e.msg).draw + 32768

variable {cfg : Config ι σ} {s : State ι σ} {i : ι} {c : Cmd ι σ} {a : Choice ι σ}
  {rest cs : List (Cmd ι σ)} {sh' : Shared ι σ} {m n : MsgId}

namespace Pending

theorem sequence_eq_step (h : Pending cfg s) (he : Effect cfg i c a s.shared sh' cs) :
    sh'.sequence.val = sh'.draws % 32768 := by
  have hold := h.sequence_eq
  rcases he.counters with ⟨hseq, hdraws⟩ | ⟨hseq, hdraws, -⟩
  · rw [hseq, hdraws, hold]
  · rw [hseq, hdraws, mblueMessageGetSequence_val (by omega), hold]
    omega

theorem send_seq_step (h : Pending cfg s) (hc : s.threads i = c :: rest)
    (he : Effect cfg i c a s.shared sh' cs) :
    ∀ k b, .send b ∈ Function.update s.threads i (cs ++ rest) k → b.type.isCall = true →
      b.seq.val = b.draw % 32768 := by
  intro k b hb hcall
  rcases mem_expand_iff.1 hb with ⟨-, hnew⟩ | hold
  · obtain ⟨hdraw, hseq, -⟩ := he.request_origin hnew hcall
    have hsequence := h.sequence_eq
    rw [hdraw, hseq, mblueMessageGetSequence_val (by omega), hsequence]
    omega
  · exact h.send_seq k b (mem_of_mem_rest hc hold) hcall

/-- **Where a request in use comes from**: it was in use before, or has just been sent. -/
theorem request_cases (h : Pending cfg s) (hc : s.threads i = c :: rest)
    (hmove : Move cfg i c s.shared sh' cs) (hm : m ∉ sh'.msgList)
    (hcall : (sh'.pool m).isCall = true) :
    (m ∉ s.shared.msgList ∧ (s.shared.pool m).isCall = true ∧
      (sh'.pool m).draw = (s.shared.pool m).draw ∧ (sh'.pool m).seq = (s.shared.pool m).seq) ∨
    ∃ b, c = .send b ∧ b.type.isCall = true ∧ (sh'.pool m).draw = b.draw ∧
      (sh'.pool m).seq = b.seq ∧ carried cs = [m] := by
  rcases hmove.origin hm with hfree | ⟨⟨b, rfl, heq⟩ | ⟨n, ms, subs, rfl, heq⟩, hcarried⟩
  · have hheader := hmove.header_eq hfree
    exact .inl ⟨hfree, Message.isCall_eq hheader ▸ hcall, Message.draw_eq hheader,
      Message.seq_eq hheader⟩
  · rw [heq, Message.isCall_of_type (type_initMessage cfg b)] at hcall
    exact .inr ⟨b, rfl, hcall, heq ▸ rfl, heq ▸ rfl, hcarried⟩
  · have hknows := h.knows i _ (Good.mem_head hc)
    have hsignal : (replicate (s.shared.pool n) ms).type = some .signal := hknows.2.1
    rw [heq, Message.isCall_of_type hsignal] at hcall
    cases hcall

theorem msg_seq_step (h : Pending cfg s) (hc : s.threads i = c :: rest)
    (hmove : Move cfg i c s.shared sh' cs) :
    ∀ m, m ∉ sh'.msgList → (sh'.pool m).isCall = true →
      (sh'.pool m).seq.val = (sh'.pool m).draw % 32768 := by
  intro m hm hcall
  rcases h.request_cases hc hmove hm hcall with
    ⟨hfree, hold, hdraw, hseq⟩ | ⟨b, rfl, hb, hdraw, hseq, -⟩
  · rw [hdraw, hseq]
    exact h.msg_seq m hfree hold
  · rw [hdraw, hseq]
    exact h.send_seq i b (Good.mem_head hc) hb

theorem request_eq_some {d : ℕ} (h : c.request? = some d) :
    ∃ b, c = .send b ∧ b.type.isCall = true ∧ b.draw = d := by
  cases c with
  | send b =>
    obtain ⟨hcall, heq⟩ := Option.ite_none_right_eq_some.1 h
    exact ⟨b, rfl, hcall, Option.some.inj heq⟩
  | _ => cases h

theorem sole_send_step (h : Pending cfg s) (hc : s.threads i = c :: rest)
    (he : Effect cfg i c a s.shared sh' cs) (d : ℕ) :
    mentions Cmd.request? (Function.update s.threads i (cs ++ rest)) d ≤ 1 := by
  have hsole := h.sole_send d
  have hexpand := mentions_expand Cmd.request? hc cs d
  by_cases hnew : d ∈ cs.filterMap Cmd.request?
  · -- nobody has sent a request with this draw yet
    obtain ⟨x, hx, hd⟩ := List.mem_filterMap.1 hnew
    obtain ⟨b, rfl, hcall, hdraw⟩ := request_eq_some hd
    obtain ⟨hb, -, k, f, rfl, rfl, -, rfl⟩ := he.request_origin hx hcall
    have hzero : mentions Cmd.request? s.threads d = 0 := mentions_eq_zero fun j y hy hyd ↦ by
      obtain ⟨b', rfl, -, hdraw'⟩ := request_eq_some hyd
      have hle := h.numbered.send_le j b' hy
      omega
    have huser : [Cmd.userCode k].filterMap Cmd.request? = [] := rfl
    have hone := (List.count_le_length (a := d)).trans
      (length_requests_callApi cfg i s.shared f)
    rw [List.filterMap_append, huser, List.append_nil] at hexpand
    omega
  · rw [List.count_eq_zero.2 hnew] at hexpand
    omega

theorem apart_step (h : Pending cfg s) (hc : s.threads i = c :: rest)
    (he : Effect cfg i c a s.shared sh' cs) :
    ∀ k b, .send b ∈ Function.update s.threads i (cs ++ rest) k → b.type.isCall = true →
      ∀ m, m ∉ sh'.msgList → (sh'.pool m).isCall = true → (sh'.pool m).draw ≠ b.draw := by
  intro k b hb hcall m hm hmcall hdraw
  have hcases := h.request_cases hc (move_of_effect he) hm hmcall
  rcases mem_expand_iff.1 hb with ⟨-, hnew⟩ | hold
  · obtain ⟨hb, -, u, f, rfl, -⟩ := he.request_origin hnew hcall
    rcases hcases with ⟨hfree, -, heq, -⟩ | ⟨b', hc', -⟩
    · have hle := h.numbered.pool_le m hfree
      omega
    · cases hc'
  · rcases hcases with ⟨hfree, hmcall', heq, -⟩ | ⟨b', rfl, hb', heq, -⟩
    · exact h.apart k b (mem_of_mem_rest hc hold) hcall m hfree hmcall' (heq.symm.trans hdraw)
    · -- two requests with this draw were to be sent
      have hhead : (Cmd.send b' : Cmd ι σ).request? = some b.draw := by
        rw [Cmd.request?, if_pos hb', ← heq, hdraw]
      have hother : (Cmd.send b : Cmd ι σ).request? = some b.draw := if_pos hcall
      have htwo := two_le_mentions hc hhead hold hother
      have hsole := h.sole_send b.draw
      omega

theorem sole_msg_step (h : Pending cfg s) (hc : s.threads i = c :: rest)
    (hmove : Move cfg i c s.shared sh' cs) :
    ∀ m n, m ∉ sh'.msgList → n ∉ sh'.msgList → (sh'.pool m).isCall = true →
      (sh'.pool n).isCall = true → (sh'.pool m).draw = (sh'.pool n).draw → m = n := by
  intro m n hm hn hmcall hncall hdraw
  rcases h.request_cases hc hmove hm hmcall with
    ⟨hmfree, hmold, hmdraw, -⟩ | ⟨b, rfl, hb, hmdraw, -, hmcarried⟩
  · rcases h.request_cases hc hmove hn hncall with
      ⟨hnfree, hnold, hndraw, -⟩ | ⟨b, rfl, hb, hndraw, -⟩
    · exact h.sole_msg m n hmfree hnfree hmold hnold (by rw [← hmdraw, ← hndraw, hdraw])
    · refine absurd ?_ (h.apart i b (Good.mem_head hc) hb m hmfree hmold)
      rw [← hmdraw, hdraw, hndraw]
  · rcases h.request_cases hc hmove hn hncall with
      ⟨hnfree, hnold, hndraw, -⟩ | ⟨b', -, -, -, -, hncarried⟩
    · refine absurd ?_ (h.apart i b (Good.mem_head hc) hb n hnfree hnold)
      rw [← hndraw, ← hdraw, hmdraw]
    · rw [hmcarried] at hncarried
      exact (List.cons.inj hncarried).1

theorem recent_step (h : Pending cfg s) (hc : s.threads i = c :: rest)
    (he : Effect cfg i c a s.shared sh' cs) (hprompt : prompt c a s.shared = true) :
    ∀ major, ∀ e ∈ sh'.callList major, sh'.draws < (sh'.pool e.msg).draw + 32768 := by
  intro major e hmem
  have hmove := move_of_effect he
  rcases hmove.entry_origin hmem with hold | ⟨rfl, -⟩
  · have hrecent := h.recent major e hold
    rw [Message.draw_eq (hmove.header_eq (h.not_free_of_entry hold))]
    rcases he.counters with ⟨-, hdraws⟩ | ⟨-, hdraws, k, f, rfl, rfl, hf⟩
    · rw [hdraws]
      exact hrecent
    · rw [prompt, hf, Bool.not_true, Bool.false_or, decide_eq_true_eq] at hprompt
      rw [hdraws]
      exact hprompt major e hold
  · rw [Message.draw_eq (hmove.header_eq (h.not_free (Good.mem_head hc) rfl))]
    rcases he.counters with ⟨-, hdraws⟩ | ⟨-, -, k, f, heq, -⟩
    · rw [hdraws]
      exact of_decide_eq_true hprompt
    · cases heq

/-- **The step lemma.** -/
theorem step (h : Pending cfg s) {l : ι × Choice ι σ} {t : State ι σ}
    (hok : AtHead (Prompt cfg) s l) (hstep : (fused cfg).step s l = some t) :
    Pending cfg t := by
  have honce := h.toOnce.step (hok.mono fun hprompt ↦ hprompt.1) hstep
  obtain ⟨i, a⟩ := l
  obtain ⟨c, rest, sh', cs, hc, he, rfl⟩ := effect_of_step hstep
  have hmove := move_of_effect he
  exact ⟨honce, h.numbered.step h.toGood hc he, h.sequence_eq_step he, h.send_seq_step hc he,
    h.msg_seq_step hc hmove, h.sole_send_step hc he, h.apart_step hc he, h.sole_msg_step hc hmove,
    h.recent_step hc he (hok.cmd hc).2⟩

theorem initial (cfg : Config ι σ) : Pending cfg (Mblue.initial cfg) := by
  have hthreads : ∀ {k x}, x ∈ (Mblue.initial cfg).threads k →
      x = .userCode .app ∨ x = .templateProc := fun {k x} hx ↦ by
    unfold Mblue.initial at hx
    dsimp only at hx
    split at hx
    · simpa using hx
    · exact .inl (List.mem_singleton.1 hx)
  refine ⟨Once.initial cfg, Numbered.initial cfg, rfl, fun k b hb ↦ ?_,
    fun m hm ↦ absurd (List.mem_finRange m) hm, fun d ↦ ?_, fun k b hb ↦ ?_,
    fun m n hm ↦ absurd (List.mem_finRange m) hm, fun major e he ↦ absurd he List.not_mem_nil⟩
  · rcases hthreads hb with h | h <;> cases h
  · refine (mentions_eq_zero fun j x hx hd ↦ ?_).le.trans zero_le_one
    rcases hthreads hx with rfl | rfl <;> cases hd
  · rcases hthreads hb with h | h <;> cases h

/-- **What is known of the pending calls**, in every state reached. -/
theorem of_run (h : Run (fused cfg).step (AtHead (Prompt cfg)) (Mblue.initial cfg) s) :
    Pending cfg s :=
  h.invariant (initial cfg) fun ha hok hstep ↦ ha.step hok hstep

end Pending

end Invariant

end Mblue
