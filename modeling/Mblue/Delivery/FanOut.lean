import Mblue.Delivery.Senders

/-!
# What the bus makes of a signal

`bus_signal` goes through the publish list it has found and makes a replica for each entry. The bus
is one thread and finishes one signal before it takes the next, so over a whole run the replicas come
in the order of the signals and, for one signal, of its list (`Fanned.due_eq`).

A replica is the signal itself under a new destination, with a counter of one: a signal reaches the
bus with a counter of zero, and its replicas take a reference each of their own copy.
-/

set_option linter.unusedSectionVars false

namespace Mblue

variable {ι σ : Type} [Fintype ι] [DecidableEq ι] [DecidableEq σ]

/-- The draw and the destination of a replica. -/
def Event.copy? : Event ι σ → Option (ℕ × σ)
  | .replica _ copy => copy.dst.map (copy.draw, ·)
  | _ => none

/-- The replicas a signal is due when the bus takes it. -/
def Event.due : Event ι σ → List (ℕ × σ)
  | .relayed d _ subs => subs.map (d, ·)
  | _ => []

/-- The replicas a loop of `bus_signal` has still to make. -/
def copying (sh : Shared ι σ) : Cmd ι σ → List (ℕ × σ)
  | .busSignalLoop m subs => subs.map ((sh.pool m).draw, ·)
  | _ => []

/-- The bus has made the replicas that are due, but for those of the signal it is working on. -/
structure Fanned (cfg : Config ι σ) (s : State ι σ) : Prop extends Sender cfg s where
  uncounted : ∀ m, m ∉ s.shared.msgList → (s.shared.pool m).type = some .signal →
    (s.shared.pool m).dst = some cfg.bus → (s.shared.pool m).ref = 0
  copy_eq : ∀ original copy, .replica original copy ∈ signalEvents s.shared →
    ∃ ms, copy = { original with ref := 1, dst := some ms }
  due_eq : (signalEvents s.shared).filterMap Event.copy? ++
    (s.threads cfg.busTask).flatMap (copying s.shared) =
      (signalEvents s.shared).flatMap Event.due

variable {cfg : Config ι σ} {s : State ι σ} {i : ι} {c : Cmd ι σ} {a : Choice ι σ}
  {rest cs : List (Cmd ι σ)} {sh sh' : Shared ι σ} {m : MsgId}

/-! ### One step -/

/-- A counter of zero stays zero, but for a request. -/
theorem Move.ref_eq_zero (h : Move cfg i c sh sh' cs) (hm : m ∉ sh.msgList)
    (href : (sh.pool m).ref = 0) (hc : c ≠ .busCall m) : (sh'.pool m).ref = 0 := by
  have hrelease : ∀ n, ((sh.release n).pool m).ref = 0 := fun n ↦ by
    rw [pool_release]
    by_cases hn : m = n
    · subst hn
      rw [Function.update_self]
      show putMblueMessage (sh.pool m).ref = 0
      rw [href]
      rfl
    · rw [Function.update_of_ne hn, href]
  have hforward : ∀ n ms, c = .busCall n → ((sh.forward n ms).pool m).ref = 0 := fun n ms hn ↦ by
    have hne : m ≠ n := fun heq ↦ hc (heq ▸ hn)
    rw [pool_forward, Function.update_of_ne hne, href]
  cases h with
  | quiet hsame _ => rw [hsame.pool_eq, href]
  | taken _ halloc hsame _ =>
    obtain ⟨rest, hlist, rfl⟩ := alloc_eq_some halloc
    have hne : m ≠ _ := fun heq ↦ hm (hlist ▸ heq ▸ List.mem_cons_self)
    rw [hsame.pool_eq]
    dsimp only
    rw [Function.update_of_ne hne, href]
  | dropped => exact hrelease _
  | forwarded => exact hforward _ _ rfl
  | linked => exact hforward _ _ rfl
  | completed => exact hrelease _
  | _ => exact href

theorem copying_congr (h : ∀ m, c.msg? = some m → (sh.pool m).SameBut (sh'.pool m)) :
    copying sh' c = copying sh c := by
  cases c with
  | busSignalLoop m subs => rw [copying, copying, Message.draw_eq (h m rfl).1]
  | _ => rfl

theorem copying_eq_nil (h : c.core = 0) (sh : Shared ι σ) : copying sh c = [] := by
  cases c <;> first | rfl | cases h

/-- The other commands have nothing to do with replicas. -/
theorem Effect.copying_eq_nil (h : Effect cfg i c a sh sh' cs) (hsignal : ∀ m, c ≠ .busSignal m)
    (hloop : ∀ m subs, c ≠ .busSignalLoop m subs) :
    cs.flatMap (copying sh') = [] ∧ copying sh c = [] ∧
      (announced cfg i sh c a).filterMap Event.copy? = [] ∧
        (announced cfg i sh c a).flatMap Event.due = [] := by
  refine ⟨List.flatMap_eq_nil_iff.2 fun x hx ↦ ?_, ?_, List.filterMap_eq_nil_iff.2 fun e he ↦ ?_,
    List.flatMap_eq_nil_iff.2 fun e he ↦ ?_⟩
  · cases x with
    | busSignalLoop m subs =>
      rcases h.loop_origin hx with ⟨heq, -⟩ | ⟨ms, heq⟩
      · exact absurd heq (hsignal m)
      · exact absurd heq (hloop m _)
    | _ => rfl
  · cases c with
    | busSignalLoop m subs => exact absurd rfl (hloop m subs)
    | _ => rfl
  · cases announces_of_mem he with
    | replica => exact absurd rfl (hloop _ _)
    | _ => rfl
  · cases announces_of_mem he with
    | relayed => exact absurd rfl (hsignal _)
    | _ => rfl

namespace Fanned

theorem uncounted_step (h : Fanned cfg s) (hc : s.threads i = c :: rest)
    (hmove : Move cfg i c s.shared sh' cs) :
    ∀ m, m ∉ sh'.msgList → (sh'.pool m).type = some .signal →
      (sh'.pool m).dst = some cfg.bus → (sh'.pool m).ref = 0 := by
  intro m hm htype hdst
  have hhead := Good.mem_head hc
  rcases hmove.origin hm with hfree | ⟨⟨b, rfl, heq⟩ | ⟨n, ms, subs, rfl, heq⟩, -⟩
  · have hne : c ≠ .busCall m := fun hcall ↦ by
      subst hcall
      have hknows := h.knows i _ hhead
      have hisCall := hknows.2.1
      rw [← Message.isCall_eq (hmove.header_eq hfree), Message.isCall_of_type htype] at hisCall
      cases hisCall
    rw [Message.type_eq (hmove.header_eq hfree)] at htype
    rw [hmove.dst_eq hfree hne] at hdst
    exact hmove.ref_eq_zero hfree (h.uncounted m hfree htype hdst) hne
  · rw [heq] at htype ⊢
    rw [type_initMessage, Option.some.injEq] at htype
    show (if b.type.isCall then 1 else 0) = (0 : Uint16)
    rw [htype]
    rfl
  · rw [heq] at hdst
    exact absurd (Option.some.inj hdst) (h.looping i n _ hhead ms List.mem_cons_self).1

theorem copy_eq_step (h : Fanned cfg s) (hc : s.threads i = c :: rest)
    (he : Effect cfg i c a s.shared sh' cs) :
    ∀ original copy, .replica original copy ∈ signalEvents sh' →
      ∃ ms, copy = { original with ref := 1, dst := some ms } := by
  intro original copy hmem
  rw [he.signalEvents_eq, List.mem_append] at hmem
  rcases hmem with hold | hnew
  · exact h.copy_eq original copy hold
  · cases announces_of_mem hnew with
    | replica hctx =>
      rename_i m ms subs
      have hhead := Good.mem_head hc
      have hknows := h.knows i _ hhead
      refine ⟨ms, ?_⟩
      rw [replicate, h.uncounted m (h.not_free hhead rfl) hknows.2.1 hknows.2.2]
      rfl

/-- **What a command copies and has still to copy** is what it had to copy, and what is due now. -/
theorem copying_step (h : Fanned cfg s) (hc : s.threads i = c :: rest)
    (he : Effect cfg i c a s.shared sh' cs) :
    (announced cfg i s.shared c a).filterMap Event.copy? ++ cs.flatMap (copying sh') =
      copying s.shared c ++ (announced cfg i s.shared c a).flatMap Event.due := by
  have hhead := Good.mem_head hc
  have hmove := move_of_effect he
  cases c with
  | busSignal m =>
    cases he with
    | signalUnheard hmajor hsubs =>
      rw [announced, hmajor, Option.elim_some, hsubs]
      rfl
    | signalRelayed hmajor hsubs =>
      rw [announced, hmajor, Option.elim_some]
      rfl
  | busSignalLoop m subs =>
    cases subs with
    | nil =>
      cases he
      rfl
    | cons ms subs =>
      -- subscribed segments are bound, so none is left out
      obtain ⟨t, hctx⟩ := (h.looping i m _ hhead ms List.mem_cons_self).2
      have hdraw := Message.draw_eq (hmove.header_eq (h.not_free hhead (m := m) rfl))
      have hone : announced cfg i s.shared (.busSignalLoop m (ms :: subs)) a =
          [.replica (s.shared.pool m) (replicate (s.shared.pool m) ms)] := by
        rw [announced, hctx, Option.isSome_some, if_pos rfl]
      have hcopy : (Event.replica (s.shared.pool m) (replicate (s.shared.pool m) ms)).copy? =
        some ((s.shared.pool m).draw, ms) := rfl
      have hcs : cs.flatMap (copying sh') = subs.map ((s.shared.pool m).draw, ·) := by
        cases he with
        | loopSkipped hnone =>
          rw [hctx] at hnone
          cases hnone
        | loopReplicated hsome halloc =>
          rw [List.flatMap_cons, List.flatMap_cons, List.flatMap_nil, List.append_nil]
          show subs.map (_, ·) = _
          rw [hdraw]
      have hdue : [Event.replica (s.shared.pool m) (replicate (s.shared.pool m) ms)].flatMap
        Event.due = [] := rfl
      rw [hone, List.filterMap_cons_some hcopy, hcs, hdue, List.append_nil]
      rfl
  | _ =>
    obtain ⟨hcs, hc, hcopy, hdue⟩ := he.copying_eq_nil (fun m heq ↦ by cases heq)
      fun m subs heq ↦ by cases heq
    rw [hcs, hc, hcopy, hdue]

theorem due_eq_step (h : Fanned cfg s) (hc : s.threads i = c :: rest)
    (he : Effect cfg i c a s.shared sh' cs) :
    (signalEvents sh').filterMap Event.copy? ++
      (Function.update s.threads i (cs ++ rest) cfg.busTask).flatMap (copying sh') =
        (signalEvents sh').flatMap Event.due := by
  have hhead := Good.mem_head hc
  have hkept : ∀ j, (Function.update s.threads i rest j).flatMap (copying sh') =
      (Function.update s.threads i rest j).flatMap (copying s.shared) := fun j ↦
    List.flatMap_congr fun d hd ↦ copying_congr fun m hm ↦ h.kept hc (move_of_effect he) hd hm
  have hbefore := h.due_eq
  have hstep := h.copying_step hc he
  rw [he.signalEvents_eq, List.filterMap_append, List.flatMap_append, ← hbefore]
  by_cases hi : cfg.busTask = i
  · subst hi
    have hrest := hkept cfg.busTask
    rw [Function.update_self] at hrest
    rw [Function.update_self, List.flatMap_append, hrest, hc, List.flatMap_cons]
    by_cases hsignal : (∀ m, c ≠ .busSignal m)
    · -- nothing is due, and what is made is taken off the list
      have hdue : (announced cfg cfg.busTask s.shared c a).flatMap Event.due = [] :=
        List.flatMap_eq_nil_iff.2 fun e hmem ↦ by
          cases announces_of_mem hmem with
          | relayed => exact absurd rfl (hsignal _)
          | _ => rfl
      rw [hdue, List.append_nil] at hstep ⊢
      rw [← hstep]
      simp only [List.append_assoc]
    · -- the bus works on this signal only
      obtain ⟨m, hm⟩ := not_forall.1 hsignal
      have hcore : c.core = 1 := by rw [not_ne_iff.1 hm]; rfl
      have hnone : rest.flatMap (copying s.shared) = [] := List.flatMap_eq_nil_iff.2 fun d hd ↦
        copying_eq_nil (h.core_unique hc hcore hd) _
      rw [hnone, List.append_nil, List.append_nil, List.append_assoc, hstep, List.append_assoc]
  · have hthreads := hkept cfg.busTask
    rw [Function.update_of_ne hi] at hthreads
    obtain ⟨hcs, hcopying, hcopy, hdue⟩ := he.copying_eq_nil
      (fun m heq ↦ hi (by subst heq; exact (h.knows i _ hhead).1.symm))
      fun m subs heq ↦ hi (by subst heq; exact (h.knows i _ hhead).1.symm)
    rw [Function.update_of_ne hi, hthreads, hcopy, hdue, List.append_nil, List.append_nil]

/-- **The step lemma.** -/
theorem step (h : Fanned cfg s) {l : ι × Choice ι σ} {t : State ι σ}
    (hok : AtHead (Delivering cfg) s l) (hstep : (fused cfg).step s l = some t) :
    Fanned cfg t := by
  have hsender := h.toSender.step hok hstep
  obtain ⟨j, a⟩ := l
  obtain ⟨c, rest, sh', cs, hc, he, rfl⟩ := effect_of_step hstep
  exact ⟨hsender, h.uncounted_step hc (move_of_effect he), h.copy_eq_step hc he,
    h.due_eq_step hc he⟩

theorem initial (cfg : Config ι σ) : Fanned cfg (Mblue.initial cfg) where
  toSender := Sender.initial cfg
  uncounted := fun m hm ↦ absurd (List.mem_finRange m) hm
  copy_eq := fun original copy hmem ↦ absurd hmem List.not_mem_nil
  due_eq := List.flatMap_eq_nil_iff.2 fun x hx ↦ by
    rcases mem_initial hx with rfl | rfl <;> rfl

theorem of_run (h : Run (fused cfg).step (AtHead (Delivering cfg)) (Mblue.initial cfg) s) :
    Fanned cfg s :=
  h.invariant (initial cfg) fun ha hok hstep ↦ ha.step hok hstep

end Fanned

end Mblue
