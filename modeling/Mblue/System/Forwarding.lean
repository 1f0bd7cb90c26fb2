import Mblue.System.Invariant

/-!
# Requests are passed on once

A request is created for the bus, and `bus_call` sends it on to the segment its major number names.
When that segment is not the bus itself (`NoSelf`) the request never comes back: as long as its
destination is the bus it has no entry in a call list and one reference, and after that it has at
most one entry. The invariant `Once` says so, and it implies the condition `NoWrap` under which
`System/Invariant.lean` is proved.
-/

set_option linter.unusedSectionVars false

namespace Mblue

variable {ι σ : Type} [Fintype ι] [DecidableEq ι] [DecidableEq σ] (cfg : Config ι σ)

/-- `bus_call` does not find the bus under the request's number. -/
def NoSelf (_ : ι) (c : Cmd ι σ) (_ : Choice ι σ) (sh : Shared ι σ) : Prop :=
  ∀ m major, c = .busCall m → (sh.pool m).major = some major → cfg.node major ≠ some cfg.bus

instance (i : ι) (c : Cmd ι σ) (a : Choice ι σ) (sh : Shared ι σ) :
    Decidable (NoSelf cfg i c a sh) :=
  inferInstanceAs (Decidable (∀ m major, c = .busCall m → (sh.pool m).major = some major →
    cfg.node major ≠ some cfg.bus))

/-- Requests are passed on once. -/
structure Once (s : State ι σ) : Prop extends Good cfg s where
  fresh_ref : ∀ m, m ∉ s.shared.msgList → (s.shared.pool m).isCall = true →
    (s.shared.pool m).dst = some cfg.bus → (s.shared.pool m).ref = 1
  entry_dst : ∀ major, ∀ e ∈ s.shared.callList major, (s.shared.pool e.msg).dst ≠ some cfg.bus
  entries_le : ∀ m, entries s.shared m ≤ 1

variable {cfg} {s : State ι σ} {i : ι} {c : Cmd ι σ} {a : Choice ι σ} {rest cs : List (Cmd ι σ)}
  {sh' : Shared ι σ}

namespace Once

theorem noWrap (h : Once cfg s) (hc : s.threads i = c :: rest) : NoWrap i c a s.shared := by
  rintro m rfl hmax
  obtain ⟨-, hcall, hdst⟩ := h.knows i _ (Good.mem_head hc)
  have hone := h.fresh_ref m (h.not_free (Good.mem_head hc) rfl) hcall hdst
  rw [hone] at hmax
  exact absurd hmax (by decide)

/-- A request that is still to be passed on has no entry. -/
theorem entries_eq_zero (h : Once cfg s) {m : MsgId}
    (hdst : (s.shared.pool m).dst = some cfg.bus) : entries s.shared m = 0 := by
  by_contra hne
  obtain ⟨major, e, he, rfl⟩ := exists_of_entries_pos (Nat.pos_of_ne_zero hne)
  exact h.entry_dst major e he hdst

theorem fresh_ref_step (h : Once cfg s) (hc : s.threads i = c :: rest)
    (hself : NoSelf cfg i c a s.shared) (hmove : Move cfg i c s.shared sh' cs) :
    ∀ m, m ∉ sh'.msgList → (sh'.pool m).isCall = true → (sh'.pool m).dst = some cfg.bus →
      (sh'.pool m).ref = 1 := by
  have hknows := h.knows i c (Good.mem_head hc)
  -- a request that is passed on is not addressed to the bus afterwards
  have hforward : ∀ n ms m major, c = .busCall n → (s.shared.pool n).major = some major →
      cfg.node major = some ms → m ∉ s.shared.msgList →
      ((s.shared.forward n ms).pool m).isCall = true →
      ((s.shared.forward n ms).pool m).dst = some cfg.bus →
      ((s.shared.forward n ms).pool m).ref = 1 := by
    intro n ms m major hn hmajor hnode hfree hcall hdst
    rw [pool_forward] at hcall hdst ⊢
    by_cases hm : m = n
    · subst hm
      rw [Function.update_self] at hdst
      exact absurd (hdst ▸ hnode) (hself m major hn hmajor)
    · rw [Function.update_of_ne hm] at hcall hdst ⊢
      exact h.fresh_ref m hfree hcall hdst
  -- and what is released was not
  have hrelease : ∀ n m, (n = m → (s.shared.pool m).isCall = true →
      (s.shared.pool m).dst ≠ some cfg.bus) → m ∉ (s.shared.release n).msgList →
      ((s.shared.release n).pool m).isCall = true →
      ((s.shared.release n).pool m).dst = some cfg.bus →
      ((s.shared.release n).pool m).ref = 1 := by
    intro n m hn hfree hcall hdst
    rw [Message.isCall_eq (header_release s.shared n m)] at hcall
    rw [dst_release] at hdst
    rw [mem_msgList_release, not_or] at hfree
    have hm : m ≠ n := fun heq ↦ hn heq.symm hcall hdst
    rw [pool_release, Function.update_of_ne hm]
    exact h.fresh_ref m hfree.1 hcall hdst
  intro m hfree hcall hdst
  cases hmove with
  | quiet hs _ =>
    rw [hs.pool_eq] at hcall hdst ⊢
    exact h.fresh_ref m (hs.msgList_eq ▸ hfree) hcall hdst
  | taken hmakes halloc hs hcarried =>
    rename_i sh₁ n content
    obtain ⟨free, hlist, rfl⟩ := alloc_eq_some halloc
    rw [hs.msgList_eq] at hfree
    rw [hs.pool_eq] at hcall hdst ⊢
    dsimp only at hfree hcall hdst ⊢
    by_cases hm : m = n
    · subst hm
      rw [Function.update_self] at hcall ⊢
      -- `send_message` sets the counter of a request to 1; a replica is a signal
      rcases hmakes with ⟨args, -, rfl⟩ | ⟨n', ms, subs, rfl, rfl⟩
      · have htype : (initMessage cfg args).isCall = args.type.isCall :=
          Message.isCall_of_type (getType_mkCode _ _ _)
        rw [htype] at hcall
        show (if args.type.isCall then (1 : Uint16) else 0) = 1
        rw [if_pos hcall]
      · have htype : (replicate (s.shared.pool n') ms).isCall = MessageType.signal.isCall :=
          Message.isCall_of_type hknows.2.1
        rw [htype] at hcall
        exact absurd hcall (by decide)
    · rw [Function.update_of_ne hm] at hcall hdst ⊢
      refine h.fresh_ref m (fun hmem ↦ ?_) hcall hdst
      rw [hlist, List.mem_cons] at hmem
      exact hmem.elim hm hfree
  | dropped hd hcarried =>
    rename_i n
    refine hrelease n m (fun heq hm ↦ ?_) hfree hcall hdst
    subst heq
    rcases hd with rfl | rfl
    · exact hknows hm
    · rw [Message.isCall_of_type hknows.2.1] at hm
      exact absurd hm (by decide)
  | forwarded hmajor hnode => exact hforward _ _ m _ rfl hmajor hnode hfree hcall hdst
  | linked hmajor hnode => exact hforward _ _ m _ rfl hmajor hnode hfree hcall hdst
  | completed =>
    rename_i major e
    refine hrelease e.msg m (fun heq _ ↦ ?_) hfree hcall hdst
    exact heq ▸ h.entry_dst major e hknows.2
  | _ => exact h.fresh_ref m hfree hcall hdst

theorem entry_dst_step (h : Once cfg s) (hc : s.threads i = c :: rest)
    (hself : NoSelf cfg i c a s.shared) (hmove : Move cfg i c s.shared sh' cs) :
    ∀ major, ∀ e ∈ sh'.callList major, (sh'.pool e.msg).dst ≠ some cfg.bus := by
  have hknows := h.knows i c (Good.mem_head hc)
  intro major e he
  rcases hmove.entry_origin he with he | ⟨rfl, hmajor, hentry⟩
  · have hdst := h.entry_dst major e he
    rwa [hmove.dst_eq (h.not_free_of_entry he) ?_]
    rintro rfl
    exact hdst hknows.2.2
  · -- the request has just been passed on, and not to the bus
    cases hmove with
    | quiet hs hcarried =>
      have hmem : e ∈ s.shared.callList major := hs.callList_eq ▸ he
      exact absurd hknows.2.2 (h.entry_dst major e hmem)
    | taken hmakes =>
      rcases hmakes with ⟨_, heq, -⟩ | ⟨_, _, _, heq, -⟩ <;> cases heq
    | lost => exact absurd hknows.2.2 (h.entry_dst major e he)
    | dropped hd => rcases hd with heq | heq <;> cases heq
    | forwarded hmajor' hnode =>
      rw [pool_forward, Function.update_self]
      exact fun heq ↦ hself _ _ rfl hmajor' (heq ▸ hnode)
    | linked hmajor' hnode =>
      show ((_ : Shared ι σ).pool e.msg).dst ≠ _
      rw [pool_forward, Function.update_self]
      exact fun heq ↦ hself _ _ rfl hmajor' (heq ▸ hnode)

theorem entries_le_step (h : Once cfg s) (hc : s.threads i = c :: rest)
    (hmove : Move cfg i c s.shared sh' cs) : ∀ m, entries sh' m ≤ 1 := by
  have hknows := h.knows i c (Good.mem_head hc)
  have hsame : ∀ {sh : Shared ι σ}, sh.callList = s.shared.callList → ∀ m, entries sh m ≤ 1 :=
    fun heq m ↦ (entries_congr heq) ▸ h.entries_le m
  cases hmove with
  | quiet hs _ => exact hsame hs.callList_eq
  | taken _ halloc hs _ =>
    obtain ⟨_, -, rfl⟩ := alloc_eq_some halloc
    exact hsame hs.callList_eq
  | dropped => exact hsame (callList_release s.shared _)
  | linked hmajor hnode hctx hentry =>
    rename_i n major ms t e
    intro m
    have hlink := congrFun (entries_link s.shared major e) m
    have hle := h.entries_le m
    have hzero := h.entries_eq_zero hknows.2.2
    show entries (s.shared.link major e) m ≤ 1
    rw [hlink, Pi.add_apply, pendingCall_msg hentry]
    by_cases hm : m = n
    · rw [hm, hzero, Pi.single_eq_same]
    · rw [Pi.single_eq_of_ne hm]
      exact hle
  | completed =>
    rename_i major e
    intro m
    have hmem : e ∈ (s.shared.release e.msg).callList major := by
      rw [callList_release]
      exact hknows.2
    have hunlink := congrFun (entries_unlink hmem) m
    have hle := h.entries_le m
    rw [entries_release, Pi.add_apply] at hunlink
    show entries ((s.shared.release e.msg).unlink major e) m ≤ 1
    omega
  | _ => exact h.entries_le

/-- **The step lemma.** -/
theorem step (h : Once cfg s) {l : ι × Choice ι σ} {t : State ι σ}
    (hok : AtHead (NoSelf cfg) s l) (hstep : (fused cfg).step s l = some t) : Once cfg t := by
  obtain ⟨i, a⟩ := l
  have hgood : Good cfg t := by
    refine h.toGood.step (AtHead.of_cmd fun c rest hc ↦ ?_) hstep
    exact h.noWrap hc
  obtain ⟨c, rest, sh', cs, hc, he, rfl⟩ := effect_of_step hstep
  have hmove := move_of_effect he
  exact ⟨hgood, h.fresh_ref_step hc (hok.cmd hc) hmove, h.entry_dst_step hc (hok.cmd hc) hmove,
    h.entries_le_step hc hmove⟩

theorem initial (cfg : Config ι σ) : Once cfg (Mblue.initial cfg) :=
  ⟨Good.initial cfg, fun m hm ↦ absurd (List.mem_finRange m) hm,
    fun _ e he ↦ absurd he List.not_mem_nil, fun m ↦ by
      have hzero : entries (Mblue.initial cfg).shared m = 0 := Finset.sum_eq_zero fun _ _ ↦ rfl
      rw [hzero]
      exact Nat.zero_le 1⟩

theorem of_run (h : Run (fused cfg).step (AtHead (NoSelf cfg)) (Mblue.initial cfg) s) :
    Once cfg s :=
  h.invariant (initial cfg) fun ha hok hstep ↦ ha.step hok hstep

end Once

end Mblue
