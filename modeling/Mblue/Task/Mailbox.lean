import Mblue.Library.Threads
import Mblue.Queue.MblueQueue

/-!
# A task's mailbox

The queue and the semaphore of one task, with all the threads that post to it through
`template_msg_post` and the task's own loop `template_proc`. A post is two atomic steps, `mq->add`
and `sem->post`; the loop takes the two objects in the opposite order, `pend` and `mq->remove`. What
the threads and the handlers do otherwise is `userCode`, which may post at any time.

`accepted` and `handled` are **history**: the messages whose `queue_add` succeeded and those a
handler was called for.
-/

set_option linter.unusedSectionVars false

namespace Mblue

variable {ι α : Type}

/-- The mailbox of a task. -/
structure Mailbox (α : Type) where
  /-- `task->mq`. -/
  mq : MblueQueue α
  /-- The count of `task->msg_sem`. -/
  msgSem : ℕ
  /-- History: what was added, the latest last. -/
  accepted : List α
  /-- History: what was handled, the latest last. -/
  handled : List α

/-- What a thread has to do next. -/
inductive MailboxCmd (α : Type)
  /-- A task's code, a message handler's or another thread's. -/
  | userCode
  /-- `mq->add` in `template_msg_post`. -/
  | add (msg : α)
  /-- `sem->post` in `template_msg_post`. -/
  | semPost
  /-- The loop of `template_proc`, at the pend on `msg_sem`. -/
  | templateProc
  /-- `mq->remove` in `template_proc`. -/
  | remove
  /-- The call of the handler for what `mq->remove` returned, `none` being `NULL`. -/
  | dispatch (msg : Option α)

/-- What the environment decides. -/
inductive MailboxChoice (α : Type)
  | go
  /-- The pend fails. -/
  | fail
  /-- User code calls `template_msg_post`. -/
  | post (msg : α)
  /-- User code returns. -/
  | finish

namespace Mailbox

/-- Code around the mailbox: it posts a message, or returns. -/
def runUserCode (a : MailboxChoice α) (mb : Mailbox α) :
    Option (Mailbox α × List (MailboxCmd α)) :=
  match a with
  | .post msg => some (mb, [.add msg, .userCode])
  | .finish => some (mb, [])
  | _ => none

/-- `template_msg_post`: nothing is posted when the queue refuses the message. -/
def templateMsgPost (msg : α) (mb : Mailbox α) : Mailbox α × List (MailboxCmd α) :=
  match mb.mq.queueAdd msg with
  | none => (mb, [])
  | some mq => ({ mb with mq := mq, accepted := mb.accepted ++ [msg] }, [.semPost])

/-- The head of the loop in `template_proc`: a pend that fails is repeated. -/
def runTemplateProc (a : MailboxChoice α) (mb : Mailbox α) :
    Option (Mailbox α × List (MailboxCmd α)) :=
  match a with
  | .go =>
    if mb.msgSem = 0 then none
    else some ({ mb with msgSem := mb.msgSem - 1 }, [.remove, .templateProc])
  | .fail => some (mb, [.templateProc])
  | _ => none

/-- The call of the handler. A null pointer that is followed has no result. -/
def runDispatch (msg : Option α) (mb : Mailbox α) : Option (Mailbox α × List (MailboxCmd α)) :=
  msg.map fun msg ↦ ({ mb with handled := mb.handled ++ [msg] }, [.userCode])

/-- One atomic step. -/
def run (c : MailboxCmd α) (a : MailboxChoice α) (mb : Mailbox α) :
    Option (Mailbox α × List (MailboxCmd α)) :=
  match c with
  | .userCode => runUserCode a mb
  | .add msg => some (templateMsgPost msg mb)
  | .semPost => some ({ mb with msgSem := mb.msgSem + 1 }, [])
  | .templateProc => runTemplateProc a mb
  | .remove => some ({ mb with mq := mb.mq.queueRemove.2 }, [.dispatch mb.mq.queueRemove.1])
  | .dispatch msg => runDispatch msg mb

/-- The mailbox and its threads as an interleaving machine. -/
def machine : Machine ι (Mailbox α) (MailboxCmd α) (MailboxChoice α) where
  run _ := run

/-- The first state: an empty queue, and the task `owner` in its `on_create`. -/
def initial [DecidableEq ι] (owner : ι) (mq : MblueQueue α) :
    Snapshot ι (Mailbox α) (MailboxCmd α) where
  shared := ⟨mq, 0, [], []⟩
  threads i := if i = owner then [.userCode, .templateProc] else [.userCode]

/-- A full queue refuses the message, and nothing else happens. -/
theorem templateMsgPost_full {mb : Mailbox α} {msg : α}
    (h : mb.mq.capacity ≤ mb.mq.contents.length) : templateMsgPost msg mb = (mb, []) := by
  unfold templateMsgPost
  rw [MblueQueue.queueAdd_eq_none_iff.2 h]

/-- The outcomes of a command. -/
inductive Outcome (mb : Mailbox α) : MailboxCmd α → Mailbox α → List (MailboxCmd α) → Prop
  | posting (msg : α) : Outcome mb .userCode mb [.add msg, .userCode]
  | finished : Outcome mb .userCode mb []
  | refused {msg} (hfull : mb.mq.queueAdd msg = none) : Outcome mb (.add msg) mb []
  | added {msg mq} (hadd : mb.mq.queueAdd msg = some mq) :
      Outcome mb (.add msg) { mb with mq := mq, accepted := mb.accepted ++ [msg] } [.semPost]
  | posted : Outcome mb .semPost { mb with msgSem := mb.msgSem + 1 } []
  | pendFailed : Outcome mb .templateProc mb [.templateProc]
  | pended (hsem : mb.msgSem ≠ 0) :
      Outcome mb .templateProc { mb with msgSem := mb.msgSem - 1 } [.remove, .templateProc]
  | removed :
      Outcome mb .remove { mb with mq := mb.mq.queueRemove.2 } [.dispatch mb.mq.queueRemove.1]
  | handled (msg : α) :
      Outcome mb (.dispatch (some msg)) { mb with handled := mb.handled ++ [msg] } [.userCode]

theorem outcome_of_run {c : MailboxCmd α} {a : MailboxChoice α} {mb mb' : Mailbox α}
    {cs : List (MailboxCmd α)} (h : run c a mb = some (mb', cs)) : Outcome mb c mb' cs := by
  cases c with
  | userCode =>
    cases a with
    | post msg => cases h; exact .posting msg
    | finish => cases h; exact .finished
    | _ => cases h
  | add msg =>
    have hpost : templateMsgPost msg mb = (mb', cs) := Option.some.inj h
    unfold templateMsgPost at hpost
    split at hpost
    · next hadd => cases hpost; exact .refused hadd
    · next hadd => cases hpost; exact .added hadd
  | semPost => cases h; exact .posted
  | templateProc =>
    cases a with
    | go =>
      have hpend : runTemplateProc .go mb = some (mb', cs) := h
      unfold runTemplateProc at hpend
      by_cases hsem : mb.msgSem = 0
      · simp only [if_pos hsem] at hpend
        cases hpend
      · simp only [if_neg hsem] at hpend
        cases hpend
        exact .pended hsem
    | fail => cases h; exact .pendFailed
    | _ => cases h
  | remove => cases h; exact .removed
  | dispatch msg =>
    cases msg with
    | none => cases h
    | some msg => cases h; exact .handled msg

/-! ### The invariant -/

/-- A `queue_add` whose token is still to be posted. -/
def unposted : MailboxCmd α → ℕ
  | .semPost => 1
  | _ => 0

/-- A token that was taken and whose message is still to be removed. -/
def unremoved : MailboxCmd α → ℕ
  | .remove => 1
  | _ => 0

/-- The commands between the pend and the handler's call. -/
def inHand : MailboxCmd α → ℕ
  | .remove | .dispatch _ => 1
  | _ => 0

/-- The message a handler is about to be called for. -/
def dispatched? : MailboxCmd α → Option α
  | .dispatch msg => msg
  | _ => none

/-- What only the owner of the mailbox does. -/
def IsOwners : MailboxCmd α → Prop
  | .templateProc | .remove | .dispatch _ => True
  | _ => False

/-- **The invariant of a mailbox.** A queued message has a token, or its poster is about to post
one, or the owner has taken its token and is about to remove it. What was added is what was handled,
what the owner has in hand, and what is queued, in this order. -/
structure Consistent [Fintype ι] (owner : ι) (s : Snapshot ι (Mailbox α) (MailboxCmd α)) : Prop where
  tokens : s.shared.msgSem + weight unposted s.threads + weight unremoved s.threads =
    s.shared.mq.contents.length
  order : s.shared.accepted =
    s.shared.handled ++ (s.threads owner).filterMap dispatched? ++ s.shared.mq.contents
  single : ((s.threads owner).map inHand).sum ≤ 1
  last : (s.threads owner).Pairwise fun c _ ↦ c ≠ .templateProc
  owners : ∀ i, ∀ c ∈ s.threads i, IsOwners c → i = owner
  some_msg : ∀ i, ∀ c ∈ s.threads i, c ≠ .dispatch none

variable [Fintype ι] [DecidableEq ι] {owner i : ι} {s : Snapshot ι (Mailbox α) (MailboxCmd α)}

namespace Consistent

/-- What the owner is about to remove is there. -/
theorem contents_ne_nil (h : Consistent owner s) (hi : .remove ∈ s.threads i) :
    s.shared.mq.contents ≠ [] := by
  have hpos : 1 ≤ weight unremoved s.threads := le_weight unremoved hi
  have htokens := h.tokens
  intro hnil
  rw [hnil, List.length_nil] at htokens
  omega

/-- The loop is where the owner's list ends. -/
theorem rest_eq_nil (h : Consistent owner s) {rest : List (MailboxCmd α)}
    (hc : s.threads owner = .templateProc :: rest) : rest = [] := by
  rw [List.eq_nil_iff_forall_not_mem]
  intro d hd
  have hlast := h.last
  rw [hc] at hlast
  exact List.rel_of_pairwise_cons hlast hd rfl

/-- What the owner has in hand is only one message. -/
theorem inHand_rest (h : Consistent owner s) {c : MailboxCmd α} {rest : List (MailboxCmd α)}
    (hc : s.threads owner = c :: rest) (hin : inHand c = 1) :
    rest.filterMap dispatched? = [] := by
  have hsingle := h.single
  rw [hc, List.map_cons, List.sum_cons, hin] at hsingle
  rw [List.filterMap_eq_nil_iff]
  intro d hd
  have hle : inHand d ≤ (rest.map inHand).sum := List.le_sum_of_mem (List.mem_map_of_mem hd)
  cases d with
  | dispatch msg =>
    have hone : inHand (.dispatch msg : MailboxCmd α) = 1 := rfl
    omega
  | _ => rfl

variable {c : MailboxCmd α} {rest cs : List (MailboxCmd α)} {mb' : Mailbox α}

theorem tokens_step (h : Consistent owner s) (hc : s.threads i = c :: rest)
    (ho : Outcome s.shared c mb' cs) :
    mb'.msgSem + weight unposted (Function.update s.threads i (cs ++ rest)) +
      weight unremoved (Function.update s.threads i (cs ++ rest)) = mb'.mq.contents.length := by
  have htokens := h.tokens
  have hposted := weight_expand unposted hc cs
  have hremoved := weight_expand unremoved hc cs
  cases ho with
  | added hadd =>
    have hlength := congrArg List.length (MblueQueue.contents_queueAdd hadd).1
    rw [List.length_append, List.length_singleton] at hlength
    simp only [List.map_cons, List.map_nil, List.sum_cons, List.sum_nil, unposted, unremoved]
      at hposted hremoved
    dsimp only
    omega
  | pended hsem =>
    simp only [List.map_cons, List.map_nil, List.sum_cons, List.sum_nil, unposted, unremoved]
      at hposted hremoved
    dsimp only
    omega
  | removed =>
    -- `queue_remove` finds the message whose token was taken
    obtain ⟨x, tail, hx⟩ := List.exists_cons_of_ne_nil (h.contents_ne_nil (hc ▸ List.mem_cons_self))
    have hremove := (MblueQueue.contents_queueRemove_cons hx).2.1
    rw [hx, List.length_cons] at htokens
    simp only [List.map_cons, List.map_nil, List.sum_cons, List.sum_nil, unposted, unremoved]
      at hposted hremoved
    dsimp only
    rw [hremove]
    omega
  | posted | handled =>
    simp only [List.map_cons, List.map_nil, List.sum_cons, List.sum_nil, unposted, unremoved]
      at hposted hremoved
    dsimp only
    omega
  | _ =>
    simp only [List.map_cons, List.map_nil, List.sum_cons, List.sum_nil, unposted, unremoved]
      at hposted hremoved
    omega

theorem order_step (h : Consistent owner s) (hc : s.threads i = c :: rest)
    (ho : Outcome s.shared c mb' cs) :
    mb'.accepted = mb'.handled ++
      (Function.update s.threads i (cs ++ rest) owner).filterMap dispatched? ++
        mb'.mq.contents := by
  have horder := h.order
  -- only the owner's own commands hand a message on
  have hother : cs.filterMap dispatched? = [c].filterMap dispatched? →
      (Function.update s.threads i (cs ++ rest) owner).filterMap dispatched? =
        (s.threads owner).filterMap dispatched? := fun heq ↦ by
    by_cases hi : owner = i
    · subst hi
      rw [Function.update_self, List.filterMap_append, heq, ← List.filterMap_append, hc]
      rfl
    · rw [Function.update_of_ne hi]
  have howner : IsOwners c → i = owner := h.owners i c (hc ▸ List.mem_cons_self)
  cases ho with
  | added hadd =>
    rw [hother rfl, (MblueQueue.contents_queueAdd hadd).1, ← List.append_assoc, ← horder]
  | removed =>
    obtain rfl := howner trivial
    obtain ⟨x, tail, hx⟩ := List.exists_cons_of_ne_nil (h.contents_ne_nil (hc ▸ List.mem_cons_self))
    obtain ⟨hfirst, hrest, -⟩ := MblueQueue.contents_queueRemove_cons hx
    have hnil := h.inHand_rest hc rfl
    have hnone : (s.threads i).filterMap dispatched? = [] := by
      rw [hc]
      exact hnil
    rw [hnone, hx, List.append_nil] at horder
    rw [Function.update_self, hfirst, hrest, List.filterMap_append, hnil, horder]
    simp [dispatched?]
  | handled msg =>
    obtain rfl := howner trivial
    have hnil := h.inHand_rest hc rfl
    have hone : (s.threads i).filterMap dispatched? = [msg] := by
      rw [hc]
      exact congrArg (msg :: ·) hnil
    rw [hone] at horder
    rw [Function.update_self, List.filterMap_append, hnil, horder]
    simp [List.filterMap_cons, dispatched?]
  | _ => rw [hother rfl]; exact horder

theorem single_step (h : Consistent owner s) (hc : s.threads i = c :: rest)
    (ho : Outcome s.shared c mb' cs) :
    ((Function.update s.threads i (cs ++ rest) owner).map inHand).sum ≤ 1 := by
  have hsingle := h.single
  by_cases hi : owner = i
  · subst hi
    rw [hc, List.map_cons, List.sum_cons] at hsingle
    rw [Function.update_self, List.map_append, List.sum_append]
    cases ho with
    | pended hsem =>
      rw [h.rest_eq_nil hc]
      simp [inHand]
    | _ =>
      simp [inHand] at hsingle ⊢
      omega
  · rw [Function.update_of_ne hi]
    exact hsingle

theorem last_step (h : Consistent owner s) (hc : s.threads i = c :: rest)
    (ho : Outcome s.shared c mb' cs) :
    (Function.update s.threads i (cs ++ rest) owner).Pairwise fun c _ ↦ c ≠ .templateProc := by
  have hlast := h.last
  by_cases hi : owner = i
  · subst hi
    rw [hc, List.pairwise_cons] at hlast
    rw [Function.update_self]
    cases ho with
    | pendFailed | pended =>
      rw [h.rest_eq_nil hc]
      simp
    | _ => simp [hlast.2]
  · rw [Function.update_of_ne hi]
    exact hlast

/-- **The step lemma.** -/
theorem step (h : Consistent owner s) {l : ι × MailboxChoice α}
    {t : Snapshot ι (Mailbox α) (MailboxCmd α)} (hstep : machine.step s l = some t) :
    Consistent owner t := by
  obtain ⟨c, rest, mb', cs, hc, hrun, rfl⟩ := machine.step_eq_some_iff.1 hstep
  have ho : Outcome s.shared c mb' cs := outcome_of_run hrun
  refine ⟨h.tokens_step hc ho, h.order_step hc ho, h.single_step hc ho, h.last_step hc ho, ?_, ?_⟩
  · refine forall_expand (P := fun i c ↦ IsOwners c → i = owner) ?_
      fun j d hd ↦ h.owners j d (mem_of_mem_rest hc hd)
    have howner : IsOwners c → l.1 = owner := h.owners l.1 c (hc ▸ List.mem_cons_self)
    cases ho <;> simp_all [IsOwners]
  · refine forall_expand (P := fun _ c ↦ c ≠ .dispatch none) ?_
      fun j d hd ↦ h.some_msg j d (mem_of_mem_rest hc hd)
    cases ho with
    | removed =>
      obtain ⟨x, tail, hx⟩ :=
        List.exists_cons_of_ne_nil (h.contents_ne_nil (hc ▸ List.mem_cons_self))
      rw [(MblueQueue.contents_queueRemove_cons hx).1]
      simp
    | _ => simp

theorem initial {mq : MblueQueue α} (hmq : mq.contents = []) :
    Consistent owner (Mailbox.initial owner mq) := by
  have hthreads : ∀ i, ∀ c ∈ (Mailbox.initial owner mq).threads i,
      c = .userCode ∨ i = owner ∧ c = .templateProc := by
    intro i c hc
    unfold Mailbox.initial at hc
    dsimp only at hc
    split at hc
    · next hi =>
      rw [List.mem_cons, List.mem_singleton] at hc
      exact hc.imp id fun h ↦ ⟨hi, h⟩
    · exact .inl (List.mem_singleton.1 hc)
  have howner : (Mailbox.initial owner mq).threads owner = [.userCode, .templateProc] := if_pos rfl
  have hzero : ∀ w : MailboxCmd α → ℕ, w .userCode = 0 → w .templateProc = 0 →
      weight w (Mailbox.initial owner mq).threads = 0 := fun w huser hproc ↦
    weight_eq_zero_iff.2 fun i c hc ↦ by
      rcases hthreads i c hc with rfl | ⟨-, rfl⟩
      · exact huser
      · exact hproc
  refine ⟨?_, ?_, ?_, ?_, fun i c hc ho ↦ ?_, fun i c hc ↦ ?_⟩
  · rw [hzero _ rfl rfl, hzero _ rfl rfl]
    exact (congrArg List.length hmq).symm
  · rw [howner]
    exact hmq.symm
  · rw [howner]
    exact Nat.zero_le 1
  · rw [howner]
    simp
  · rcases hthreads i c hc with rfl | ⟨hi, rfl⟩
    · exact ho.elim
    · exact hi
  · rcases hthreads i c hc with rfl | ⟨-, rfl⟩ <;> simp

end Consistent

/-- **The invariant holds in every state reached.** -/
theorem consistent_of_run {mq : MblueQueue α} (hmq : mq.contents = [])
    {ok : Snapshot ι (Mailbox α) (MailboxCmd α) → ι × MailboxChoice α → Prop}
    (h : Run machine.step ok (initial owner mq) s) : Consistent owner s :=
  h.invariant (.initial hmq) fun hs _ hstep ↦ hs.step hstep

end Mailbox

end Mblue
