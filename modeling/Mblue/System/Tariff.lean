import Mblue.System.Invariant

/-!
# Tariffs

A **tariff** prices every pending command and every queued message, by the header and the
destination of the message only. The total over a state is then accounted for step by step: what a
step changes is the price of the command it executes, of the commands this expands to, and of the
messages that enter or leave a queue (`Tariff.account`). Everything else keeps its price, since a
message in use keeps its header and its destination.
-/

set_option linter.unusedSectionVars false

namespace Mblue

variable {ι σ : Type}

/-- Prices for commands and messages. -/
structure Tariff (ι σ : Type) where
  /-- What a pending command costs, when the messages are `pool`. -/
  cmd : (MsgId → Message ι σ) → Cmd ι σ → ℕ
  /-- What a queued message costs. -/
  msg : Message ι σ → ℕ
  cmd_congr : ∀ {pool pool' : MsgId → Message ι σ} {d : Cmd ι σ}, (∀ m, d.msg? = some m →
    (pool' m).header = (pool m).header ∧ (pool' m).dst = (pool m).dst) → cmd pool' d = cmd pool d
  msg_congr : ∀ {x y : Message ι σ}, x.header = y.header → x.dst = y.dst → msg x = msg y

namespace Tariff

variable [Fintype ι] [DecidableEq ι] [DecidableEq σ] (T : Tariff ι σ)

/-- What the queued messages cost. -/
def queues (sh : Shared ι σ) : ℕ := ∑ t, ((sh.mq t).map fun m ↦ T.msg (sh.pool m)).sum

/-- What is pending costs. -/
def total (s : State ι σ) : ℕ := weight (T.cmd s.shared.pool) s.threads + T.queues s.shared

variable {cfg : Config ι σ} {s : State ι σ} {i : ι} {c : Cmd ι σ} {rest cs : List (Cmd ι σ)}
  {sh' : Shared ι σ} {m : MsgId}

/-- **The accounting equation of a step.** -/
theorem account (h : Good cfg s) (hc : s.threads i = c :: rest)
    (hmove : Move cfg i c s.shared sh' cs) :
    T.total ⟨sh', Function.update s.threads i (cs ++ rest)⟩ +
        (T.cmd s.shared.pool c + T.queues s.shared) =
      T.total s + ((cs.map (T.cmd sh'.pool)).sum + T.queues sh') := by
  have hsame : ∀ j, ∀ d ∈ Function.update s.threads i rest j,
      T.cmd sh'.pool d = T.cmd s.shared.pool d :=
    fun j d hd ↦ T.cmd_congr fun m hm ↦ h.kept hc hmove hd hm
  have htrade := weight_trade hc cs hsame
  unfold total
  dsimp only
  omega

/-- The queues keep their price where no message enters or leaves them. -/
theorem queues_eq (h : Good cfg s) (hc : s.threads i = c :: rest)
    (hmove : Move cfg i c s.shared sh' cs) (hremove : c ≠ .remove) (hpost : ∀ t m, c ≠ .post t m) :
    T.queues sh' = T.queues s.shared := by
  unfold queues
  rw [hmove.mq_eq hremove hpost]
  refine Finset.sum_congr rfl fun t _ ↦ congrArg List.sum (List.map_congr_left fun m hm ↦ ?_)
  have hkept := h.kept_of_mq hc hmove hm
  exact T.msg_congr hkept.1 hkept.2

/-- A message leaves a queue. -/
theorem queues_removed {sh : Shared ι σ} {tail : List MsgId} (hmq : sh.mq i = m :: tail) :
    T.queues { sh with mq := Function.update sh.mq i tail } + T.msg (sh.pool m) = T.queues sh := by
  have hsum := sum_update sh.mq (fun l ↦ (l.map fun m ↦ T.msg (sh.pool m)).sum) i tail
  simp only [hmq, List.map_cons, List.sum_cons] at hsum
  unfold queues
  dsimp only
  omega

/-- A message enters a queue. -/
theorem queues_posted (sh : Shared ι σ) (t : ι) (m : MsgId) :
    T.queues { sh with mq := Function.update sh.mq t (sh.mq t ++ [m]) } =
      T.queues sh + T.msg (sh.pool m) := by
  have hsum := sum_update sh.mq (fun l ↦ (l.map fun m ↦ T.msg (sh.pool m)).sum) t (sh.mq t ++ [m])
  simp only [List.map_append, List.sum_append, List.map_singleton, List.sum_singleton] at hsum
  unfold queues
  dsimp only
  omega

end Tariff

end Mblue
