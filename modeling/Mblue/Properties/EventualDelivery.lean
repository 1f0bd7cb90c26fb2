import Mblue.Delivery.Progress
import Mblue.Properties.PublishSubscribe

/-!
# Every broadcast arrives

The system settles (`Properties/BoundedWork.lean`); what then? In a system in which user code only
subscribes segments and sends signals, a state in which no step of the system's own is left is one
in which **every broadcast has arrived**: the bus has relayed it, once, and each segment that was
subscribed has handled it (`delivered_of_idle`). No message waits in a queue that nobody is woken up
for, and no thread is blocked.

There is one exception, which is a defect of the source: `bus_signal` does not check the message that
it allocates for a replica, so the bus stops where none is free (`Starved`).
-/

set_option linter.unusedSectionVars false

namespace Mblue

variable {ι σ : Type} [Fintype ι] [DecidableEq ι] [DecidableEq σ] {cfg : Config ι σ}
  {s : State ι σ}

/-- The condition on the steps of a run: user code only subscribes segments and sends signals, there
is a message for each signal and room in the queues. -/
def Publishing (cfg : Config ι σ) (i : ι) (c : Cmd ι σ) (a : Choice ι σ) (sh : Shared ι σ) : Prop :=
  Supplied cfg i c a sh ∧ publishes cfg c a = true

instance (cfg : Config ι σ) (i : ι) (c : Cmd ι σ) (a : Choice ι σ) (sh : Shared ι σ) :
    Decidable (Publishing cfg i c a sh) :=
  inferInstanceAs (Decidable (_ ∧ _))

/-- The system can take no step of its own, and all user code has returned. -/
def Idle (cfg : Config ι σ) (s : State ι σ) : Prop :=
  ∀ i a c rest, s.threads i = c :: rest → isInternal c a = true →
    (system cfg).step s (i, a) = none

/-- The bus is to make a replica, and no message is free. -/
def Starved (cfg : Config ι σ) (s : State ι σ) : Prop :=
  s.shared.msgList = [] ∧
    ∃ m ms subs rest, s.threads cfg.busTask = .busSignalLoop m (ms :: subs) :: rest

/-- All that is left are loops of tasks that wait. -/
def Resting (s : State ι σ) : Prop :=
  ∀ i, s.threads i = [] ∨ s.threads i = [.templateProc] ∧ s.shared.msgSem i = 0

instance (s : State ι σ) : Decidable (Resting s) :=
  inferInstanceAs (Decidable (∀ _, _ ∨ _ ∧ _))

/-- Where only loops wait, nothing can happen. -/
theorem Resting.idle (h : Resting s) : Idle cfg s := by
  intro i a c rest hc hinternal
  have hstep : (system cfg).step s (i, a) ≠ none → False := fun hne ↦ by
    obtain ⟨t, ht⟩ := Option.ne_none_iff_exists'.1 hne
    obtain ⟨c', rest', sh', cs, hc', hrun, -⟩ := (system cfg).step_eq_some_iff.1 ht
    obtain ⟨rfl, rfl⟩ := List.cons.inj (hc.symm.trans hc')
    rcases h i with hnil | ⟨hloop, hsem⟩
    · rw [hc] at hnil
      cases hnil
    · rw [hc] at hloop
      obtain ⟨rfl, -⟩ := List.cons.inj hloop
      have he : Effect cfg i .templateProc a s.shared sh' cs := effect_of_runTemplateProc hrun
      cases he with
      | pendFailed => cases hinternal
      | pendTaken hpos => exact hpos hsem
  by_contra hne
  exact hstep hne

/-- Where nothing can happen, the bus is not at a `list_del`. -/
theorem Idle.fuse_eq (h : Idle cfg s) : fuse cfg s = s := by
  rcases fuse_cases cfg s with ⟨major, e, rest, hbus⟩ | hfuse
  · have hnone := h cfg.busTask .go _ rest hbus rfl
    rw [(system cfg).step_eq_some_iff.2 ⟨_, rest, _, _, hbus, rfl, rfl⟩] at hnone
    cases hnone
  · exact hfuse

theorem Publishing.unseen : Unseen (Publishing cfg) := fun _ _ _ _ major e huses hok ↦
  ⟨Supplied.unseen major e huses hok.1, hok.2⟩

/-- **Where nothing can happen, only loops wait**, unless the bus is starved. -/
theorem Publisher.resting (h : Publisher cfg s) (hwired : Wired cfg) (hidle : Idle cfg s)
    (hfed : ¬Starved cfg s) : Resting s := by
  intro i
  cases hc : s.threads i with
  | nil => exact .inl rfl
  | cons c rest =>
    right
    rcases h.ready hwired hc with ⟨rfl, hsem⟩ | ⟨hlist, m, ms, subs, rfl⟩ | ⟨a, hinternal, hrun⟩
    · have hordered := h.ordered i
      rw [hc] at hordered
      rw [eq_nil_of_templateProc hordered]
      exact ⟨rfl, hsem⟩
    · obtain ⟨rfl, -⟩ := h.knows i _ (Good.mem_head hc)
      exact absurd ⟨hlist, m, ms, subs, rest, hc⟩ hfed
    · obtain ⟨⟨sh', cs⟩, hrun⟩ := Option.isSome_iff_exists.1 hrun
      have hnone := hidle i a c rest hc hinternal
      rw [(system cfg).step_eq_some_iff.2 ⟨c, rest, sh', cs, hc, hrun, rfl⟩] at hnone
      cases hnone

/-- Where only loops wait, no queue holds a message. -/
theorem Publisher.quiescent (h : Publisher cfg s) (hwired : Wired cfg) (hrest : Resting s) :
    Quiescent s := by
  have hloops : ∀ j, ∀ d ∈ s.threads j, d = .templateProc := fun j d hd ↦ by
    rcases hrest j with hnil | ⟨hloop, -⟩
    · rw [hnil] at hd
      cases hd
    · rw [hloop] at hd
      exact List.mem_singleton.1 hd
  refine fun t ↦ ⟨List.eq_nil_iff_forall_not_mem.2 fun m hm ↦ ?_,
    List.all_eq_true.2 fun d hd ↦ by rw [hloops t d hd]; rfl⟩
  obtain ⟨ms, -, hctx⟩ := h.routed t m hm
  have hloop := h.loops t (hwired.isTask ms t hctx)
  rcases hrest t with hnil | ⟨heq, hsem⟩
  · rw [hnil] at hloop
    cases hloop
  · rw [h.mq_eq_nil heq hsem fun j u rest hj ↦ by
      have hloop := hloops j (.semPost u) (hj ▸ List.mem_cons_self)
      cases hloop] at hm
    cases hm

/-- Every broadcast has been handled by its subscribers, the queues are empty, and the tasks wait for
the next message. -/
structure Arrived (cfg : Config ι σ) (s : State ι σ) : Prop extends Delivered cfg s where
  quiescent : Quiescent s
  resting : Resting s

/-- **Every broadcast arrives**: where the system has come to rest, all have been relayed and
handled, unless the bus has found no message for a replica. -/
theorem delivered_of_idle (h : Run (system cfg).step (AtHead (Publishing cfg)) (initial cfg) s)
    (hwired : Wired cfg) (hidle : Idle cfg s) : Arrived cfg s ∨ Starved cfg s := by
  have hrun := (Split.of_noWrap h Publishing.unseen fun hok ↦ hok.1.1.1).2
  rw [hidle.fuse_eq] at hrun
  have hpublisher : Publisher cfg s := hrun.invariant (Publisher.initial cfg) fun ha hok hstep ↦
    ha.step (hok.mono fun hpublishing ↦ ⟨hpublishing.1.1, hpublishing.2⟩) hstep
  by_cases hfed : Starved cfg s
  · exact .inr hfed
  · have hrest := hpublisher.resting hwired hidle hfed
    have hquiet := hpublisher.quiescent hwired hrest
    exact .inl ⟨delivered_of_run (h.mono fun hok ↦ hok.mono And.left) hquiet, hquiet, hrest⟩

/-- Both segments have handled both broadcasts. -/
theorem delivered_of_idle_twice : ∃ t, exec (system broadcastConfig).step
      (AtHead (Publishing broadcastConfig)) (initial broadcastConfig) publishTwice = some t ∧
    decide (Resting t) = true ∧ (Arrived broadcastConfig t ∨ Starved broadcastConfig t) := by
  obtain ⟨t, ht, hrest⟩ : ∃ t, exec (system broadcastConfig).step
      (AtHead (Publishing broadcastConfig)) (initial broadcastConfig) publishTwice = some t ∧
    decide (Resting t) = true := Option.map_eq_some_iff.1 rfl
  have hwired : Wired broadcastConfig :=
    ⟨fun _ _ _ ↦ rfl, fun ms item hitem ↦ by
      rw [List.mem_singleton.1 hitem]
      decide⟩
  exact ⟨t, ht, hrest,
    delivered_of_idle (run_exec ht) hwired (Resting.idle (of_decide_eq_true hrest))⟩

end Mblue
