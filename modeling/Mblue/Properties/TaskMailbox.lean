import Mblue.Task.Mailbox

/-!
# A task's mailbox is a lossless queue

What the invariant of `Task/Mailbox.lean` says about a mailbox in every interleaving of its posters
with its owner: there are never more tokens than messages, a pend that succeeded finds a message, the
messages handled are a prefix of those added, with what the owner has in hand and what is queued as
the rest, and a post that the full queue refuses changes nothing.
-/

set_option linter.unusedSectionVars false

namespace Mblue

namespace Mailbox

variable {ι α : Type} [Fintype ι] [DecidableEq ι] {owner : ι}
  {s : Snapshot ι (Mailbox α) (MailboxCmd α)}

/-- What a task relies on. -/
structure Lossless (owner : ι) (s : Snapshot ι (Mailbox α) (MailboxCmd α)) : Prop where
  tokens_le : s.shared.msgSem ≤ s.shared.mq.contents.length
  remove_some : ∀ i, .remove ∈ s.threads i → s.shared.mq.queueRemove.1 ≠ none
  dispatch_some : ∀ i, .dispatch none ∉ s.threads i
  handled_prefix : s.shared.handled <+: s.shared.accepted
  rest_eq : s.shared.accepted = s.shared.handled ++
    ((s.threads owner).filterMap dispatched? ++ s.shared.mq.contents)
  full_unchanged : ∀ i msg rest a t, s.threads i = .add msg :: rest →
    s.shared.mq.capacity ≤ s.shared.mq.contents.length → machine.step s (i, a) = some t →
      t.shared = s.shared ∧ t.threads i = rest

theorem Consistent.lossless (h : Consistent owner s) : Lossless owner s := by
  have hrest : s.shared.accepted = s.shared.handled ++
      ((s.threads owner).filterMap dispatched? ++ s.shared.mq.contents) :=
    h.order.trans (List.append_assoc _ _ _)
  refine ⟨?_, fun i hi ↦ ?_, fun i hi ↦ h.some_msg i _ hi rfl, ?_, hrest, ?_⟩
  · have htokens := h.tokens
    omega
  · obtain ⟨x, tail, hx⟩ := List.exists_cons_of_ne_nil (h.contents_ne_nil hi)
    rw [(MblueQueue.contents_queueRemove_cons hx).1]
    simp
  · rw [hrest]
    exact List.prefix_append _ _
  · intro i msg rest a t hc hfull hstep
    obtain ⟨c, rest', mb, cs, hc', hrun, rfl⟩ := machine.step_eq_some_iff.1 hstep
    obtain ⟨rfl, rfl⟩ := List.cons.inj (hc.symm.trans hc')
    have hpost : some (templateMsgPost msg s.shared) = some (mb, cs) := hrun
    rw [templateMsgPost_full hfull] at hpost
    cases hpost
    exact ⟨rfl, Function.update_self _ _ _⟩

/-- **A mailbox loses, duplicates and reorders nothing**, in every interleaving. -/
theorem lossless_of_run {data : ℕ → α} {capacity : ℕ} {mq : MblueQueue α}
    (hmq : MblueQueue.queueInit data capacity = some mq)
    (h : Run machine.step (fun _ _ ↦ True) (initial owner mq) s) : Lossless owner s :=
  (consistent_of_run (MblueQueue.contents_queueInit hmq) h).lossless

/-- A queue of one message: the second post is refused, and the owner handles the first. -/
theorem lossless_full : ∃ mq, MblueQueue.queueInit (fun _ ↦ 0) 1 = some mq ∧
    ∃ t, exec machine.step (fun _ _ ↦ True) (initial (0 : Fin 2) mq)
      [(1, .post 7), (1, .go), (1, .go), (1, .post 8), (1, .go), (0, .finish), (0, .fail), (0, .go),
        (0, .go), (0, .go)] = some t ∧
      (t.shared.accepted, t.shared.handled) = ([7], [7]) ∧ Lossless 0 t :=
  ⟨_, rfl, exists_of_exec_eq rfl fun _ h ↦
    lossless_of_run (show MblueQueue.queueInit (fun _ ↦ 0) 1 = _ from rfl) h⟩

end Mailbox

end Mblue
