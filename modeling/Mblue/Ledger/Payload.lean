import Mblue.Ledger.Accounts

/-!
# The account of the block

One step after the other, the payload block of a remote call has one holder or has been freed once
(`Ledger.payload_step`).
-/

set_option linter.unusedSectionVars false

namespace Mblue

variable {ι σ : Type} [Fintype ι] [DecidableEq ι] [DecidableEq σ] {cfg : Config ι σ}
  {A : SendArgs ι σ} {block : List UInt8} {s : State ι σ} {i : ι} {c : Cmd ι σ} {a : Choice ι σ}
  {rest cs : List (Cmd ι σ)} {sh' : Shared ι σ} {m : MsgId}

namespace Ledger

/-- **The block changes hands**: a step that leaves the queues alone trades its holders and its
frees. -/
theorem payload_traded (h : Ledger cfg A block s) (hc : s.threads i = c :: rest)
    (he : Effect cfg i c a s.shared sh' cs) (hok : unbroken cfg A c a s.shared = true)
    (hremove : c ≠ .remove) (hpost : ∀ t m, c ≠ .post t m) :
    (cs.filterMap (payloads.cmd sh')).count A.draw +
        (emitted s.shared c cs).count (.freed A.draw A.input) =
      ([c].filterMap (payloads.cmd s.shared)).count A.draw := by
  have hknows := h.knows i c (Good.mem_head hc)
  cases he with
  | removed => exact absurd rfl hremove
  | postFull => exact absurd rfl (hpost _ _)
  | postDone => exact absurd rfl (hpost _ _)
  | userCall hmay =>
    rename_i k f
    exact h.handed.count_userCall hmay (fun _ _ ↦ rfl) fun _ _ ↦ rfl
  | sendFailed hnone =>
    rename_i b
    have hne : b.draw ≠ A.draw := fun heq ↦ by
      rw [unbroken, heq, bne_self_eq_false, hnone] at hok
      cases hok
    exact (count_singleton_of_ne hne).symm
  | sendDone halloc hctx =>
    rename_i b n t
    obtain ⟨free, -, rfl⟩ := alloc_eq_some halloc
    show [(Function.update s.shared.pool n (initMessage cfg b) n).draw].count A.draw + 0 = _
    rw [Function.update_self]
    rfl
  | signalUnheard | loopDone =>
    exact (count_singleton_of_ne (h.draw_ne_of_type (h.in_use hc rfl) hknows.2.1 rfl)).symm
  | loopReplicated hctx halloc =>
    rename_i n ms subs t r sh₁
    obtain ⟨free, hfree, rfl⟩ := alloc_eq_some halloc
    have hne : n ≠ r := fun heq ↦ h.in_use hc rfl (hfree ▸ heq ▸ List.mem_cons_self)
    have hdraw := h.draw_ne_of_type (h.in_use hc rfl) hknows.2.1 rfl
    show [(Function.update s.shared.pool r (replicate (s.shared.pool n) ms) r).draw,
      (Function.update s.shared.pool r (replicate (s.shared.pool n) ms) n).draw].count A.draw +
        0 = [(s.shared.pool n).draw].count A.draw
    rw [Function.update_self, Function.update_of_ne hne, List.count_cons,
      count_singleton_of_ne hdraw, if_neg]
    exact fun heq ↦ hdraw (beq_iff_eq.1 heq)
  | callNoSegment hmajor hnode =>
    refine (count_singleton_of_ne (draw_ne_of_busCall hok fun major ms hm hms ↦ .inr ?_)).symm
    obtain rfl := Option.some.inj (hmajor.symm.trans hm)
    exact hnode ms hms
  | callNoMemory hmajor hnode hctx hentry =>
    exact (count_singleton_of_ne (bne_iff_ne.1 hok)).symm
  | callNoEntry hmajor hnode hctx hentry =>
    rename_i n major ms t
    show [(Function.update s.shared.pool n _ n).draw].count A.draw + 0 = _
    rw [Function.update_self]
    rfl
  | callLinked hmajor hnode hctx hentry =>
    rename_i n major ms t e
    show [(Function.update s.shared.pool n _ n).draw].count A.draw + 0 = _
    rw [Function.update_self]
    rfl
  | requestUndecodable hpayload hread =>
    rename_i ms n payload
    have hne : (s.shared.pool n).draw ≠ A.draw := fun heq ↦ by
      have hfails : headerFails cfg ms n s.shared = true := by
        rw [headerFails, hpayload]
        dsimp only
        rw [hread]
      rw [unbroken, heq, bne_self_eq_false, hfails] at hok
      cases hok
    exact (count_singleton_of_ne hne).symm
  | serviceFinished | requestRefused =>
    have hzero := h.gives.draw_pos.ne
    show [0, _].count A.draw + 0 = [_].count A.draw
    rw [List.count_cons, if_neg fun heq ↦ hzero (beq_iff_eq.1 heq)]
    rfl
  | finishedPayload | finishedPlain =>
    show 0 + _ = [_].count A.draw
    rw [h.handed.emitted_finish (h.in_use hc rfl), Nat.zero_add]
  | returnAsync =>
    show 0 + [Event.notified _ _].count _ = 0
    rw [Nat.zero_add]
    refine List.count_eq_zero.2 fun hmem ↦ ?_
    cases List.mem_singleton.1 hmem
  | _ => rfl

/-- **The block is accounted for**: it has one holder, or has been freed once. -/
theorem payload_step (h : Ledger cfg A block s) (hc : s.threads i = c :: rest)
    (he : Effect cfg i c a s.shared sh' cs) (hok : unbroken cfg A c a s.shared = true) :
    payloads.total ⟨sh', Function.update s.threads i (cs ++ rest)⟩ A.draw +
      (heapEvents sh').count (.freed A.draw A.input) = 1 := by
  refine h.handed.account_step hc he (fun _ ↦ rfl) (fun _ _ ↦ rfl) ⟨rfl, fun _ ↦ rfl⟩ ?_ ?_
    (h.payload_traded hc he hok) h.payload
  · rintro t m rfl hdraw
    rw [unbroken, hdraw, bne_self_eq_false, Bool.false_or, decide_eq_true_eq] at hok
    exact hok
  · intro m ms type handler _ hfree htype hhandler
    have hother : type.isCall = false → (none = some A.draw ↔ (s.shared.pool m).draw = A.draw) :=
      fun hcall ↦ iff_of_false (Option.some_ne_none _ ∘ Eq.symm) (h.draw_ne_of_type hfree htype hcall)
    cases handles_of_getHandler hhandler with
    | subscribe => exact hother rfl
    | busCallReturn => exact hother rfl
    | _ => exact Option.some_inj

end Ledger

end Mblue
