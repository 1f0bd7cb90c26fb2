import Mblue.System.Invariant

/-!
# Tokens

To follow one thing through the system (a block, a notifier) is to say which pending commands and
which queued messages stand for it, and that their number does not change: a `Tally`. A command that
remains stands for what it stood for, because its message keeps its header and its destination. So
only the executed command, the commands it expands to, and the message it takes from a queue or puts
into one have to be looked at (`Tally.total_step`, `Tally.total_removed`, `Tally.total_posted`).
-/

set_option linter.unusedSectionVars false

namespace Mblue

variable {ι σ β : Type}

/-! ### Counting one thing -/

section Count

variable {α β γ : Type} [DecidableEq α] {f : β → Option α} {g : γ → Option α} {x : β} {x' : γ}
  {y : α}

theorem count_singleton_of_ne {z : α} (h : z ≠ y) : [z].count y = 0 :=
  List.count_eq_zero.2 fun hmem ↦ h (List.mem_singleton.1 hmem).symm

/-- What stands for a thing counts once for it. -/
theorem count_token (h : f x = some y) : ([x].filterMap f).count y = 1 := by
  rw [List.filterMap_cons_some h, List.filterMap_nil, List.count_singleton_self]

theorem count_tokens_of_ne {xs : List β} (h : ∀ x ∈ xs, f x ≠ some y) :
    (xs.filterMap f).count y = 0 := by
  refine List.count_eq_zero.2 fun hmem ↦ ?_
  obtain ⟨x, hx, hxy⟩ := List.mem_filterMap.1 hmem
  exact h x hx hxy

theorem count_token_of_ne (h : f x ≠ some y) : ([x].filterMap f).count y = 0 :=
  count_tokens_of_ne fun _ hz ↦ List.mem_singleton.1 hz ▸ h

/-- Two tokens count the same for a thing both stand for, or neither. -/
theorem count_token_congr (h : f x = some y ↔ g x' = some y) :
    ([x].filterMap f).count y = ([x'].filterMap g).count y := by
  by_cases hx : f x = some y
  · rw [count_token hx, count_token (h.1 hx)]
  · rw [count_token_of_ne hx, count_token_of_ne (mt h.2 hx)]

/-- A token counts at most as often as those that take its place. -/
theorem count_token_le {xs : List γ} (h : f x = some y → ∃ x' ∈ xs, g x' = some y) :
    ([x].filterMap f).count y ≤ (xs.filterMap g).count y := by
  by_cases hx : f x = some y
  · rw [count_token hx]
    exact List.count_pos_iff.2 (List.mem_filterMap.2 (h hx))
  · rw [count_token_of_ne hx]
    exact Nat.zero_le _

end Count

/-! ### Tallies -/

/-- Two contents of a message that differ at most in the counter. -/
def Message.SameBut (msg msg' : Message ι σ) : Prop := msg'.header = msg.header ∧ msg'.dst = msg.dst

/-- What commands and queued messages stand for. -/
structure Tally (ι σ β : Type) where
  cmd : Shared ι σ → Cmd ι σ → Option β
  msg : Shared ι σ → MsgId → Option β
  /-- A command stands for the same thing as long as its message, or its entry's, is the same. -/
  cmd_congr : ∀ {sh sh' c}, (∀ m, c.msg? = some m → (sh.pool m).SameBut (sh'.pool m)) →
    (∀ major e, c = .complete major e → (sh'.pool e.msg).header = (sh.pool e.msg).header) →
    cmd sh' c = cmd sh c
  msg_congr : ∀ {sh sh' m}, (sh.pool m).SameBut (sh'.pool m) → msg sh' m = msg sh m

namespace Tally

variable [Fintype ι] [DecidableEq ι] [DecidableEq σ] [DecidableEq β] (T : Tally ι σ β)

/-- How many queued messages stand for a thing. -/
def queued (sh : Shared ι σ) (b : β) : ℕ := ∑ t, ((sh.mq t).filterMap (T.msg sh)).count b

/-- How many commands and queued messages stand for a thing. -/
def total (s : State ι σ) (b : β) : ℕ :=
  mentions (T.cmd s.shared) s.threads b + T.queued s.shared b

variable {T} {cfg : Config ι σ} {s : State ι σ} {i : ι} {c : Cmd ι σ} {rest cs : List (Cmd ι σ)}
  {sh' : Shared ι σ} {b : β}

theorem cmd_of_pool {sh : Shared ι σ} (h : sh'.pool = sh.pool) (c : Cmd ι σ) :
    T.cmd sh' c = T.cmd sh c :=
  T.cmd_congr (fun _ _ ↦ by rw [h]; exact ⟨rfl, rfl⟩) fun _ _ _ ↦ by rw [h]

theorem msg_of_pool {sh : Shared ι σ} (h : sh'.pool = sh.pool) (m : MsgId) :
    T.msg sh' m = T.msg sh m :=
  T.msg_congr (by rw [h]; exact ⟨rfl, rfl⟩)

theorem queued_congr {sh : Shared ι σ} (hmq : sh'.mq = sh.mq)
    (hsame : ∀ t, ∀ m ∈ sh.mq t, (sh.pool m).SameBut (sh'.pool m)) :
    T.queued sh' b = T.queued sh b := by
  refine Finset.sum_congr rfl fun t _ ↦ ?_
  rw [hmq]
  exact congrArg (List.count b) (List.filterMap_congr fun m hm ↦ T.msg_congr (hsame t m hm))

/-- Nothing stands for a thing. -/
theorem total_eq_zero (hcmd : ∀ j, ∀ d ∈ s.threads j, T.cmd s.shared d ≠ some b)
    (hmsg : ∀ t, ∀ m ∈ s.shared.mq t, T.msg s.shared m ≠ some b) : T.total s b = 0 := by
  have hqueued : T.queued s.shared b = 0 :=
    Finset.sum_eq_zero fun t _ ↦ count_tokens_of_ne (hmsg t)
  rw [total, mentions_eq_zero hcmd, hqueued]

/-- The commands that remain stand for what they stood for. -/
theorem cmd_kept (h : Good cfg s) (hc : s.threads i = c :: rest)
    (hmove : Move cfg i c s.shared sh' cs) {j : ι} {d : Cmd ι σ}
    (hd : d ∈ Function.update s.threads i rest j) : T.cmd sh' d = T.cmd s.shared d := by
  refine T.cmd_congr (fun _ hm ↦ h.kept hc hmove hd hm) fun major e heq ↦ ?_
  have hmem := (h.knows j d (mem_of_mem_rest hc hd))
  rw [heq] at hmem
  exact hmove.header_eq (h.not_free_of_entry hmem.2)

/-- **The accounting equation** of a step that leaves the queues alone. -/
theorem total_step (h : Good cfg s) (hc : s.threads i = c :: rest)
    (hmove : Move cfg i c s.shared sh' cs) (hmq : sh'.mq = s.shared.mq) (b : β) :
    T.total ⟨sh', Function.update s.threads i (cs ++ rest)⟩ b +
        ([c].filterMap (T.cmd s.shared)).count b =
      T.total s b + (cs.filterMap (T.cmd sh')).count b := by
  have hkeep : ∀ j, ∀ d ∈ Function.update s.threads i rest j, T.cmd sh' d = T.cmd s.shared d :=
    fun j d hd ↦ cmd_kept h hc hmove hd
  have htrade := mentions_trade (T.cmd s.shared) hc cs b hkeep
  have hqueued : T.queued sh' b = T.queued s.shared b :=
    queued_congr hmq fun t m hm ↦ h.kept_of_mq hc hmove hm
  unfold total
  dsimp only
  omega

/-- A message is taken from a queue. -/
theorem total_removed {m : MsgId} {tail : List MsgId} (hc : s.threads i = .remove :: rest)
    (hmq : s.shared.mq i = m :: tail) (handler : Cmd ι σ) :
    T.total ⟨{ s.shared with mq := Function.update s.shared.mq i tail },
        Function.update s.threads i ([handler] ++ rest)⟩ b +
        ([.remove].filterMap (T.cmd s.shared)).count b + ([m].filterMap (T.msg s.shared)).count b =
      T.total s b + ([handler].filterMap (T.cmd s.shared)).count b := by
  let sh : Shared ι σ := { s.shared with mq := Function.update s.shared.mq i tail }
  have hcmd : T.cmd sh = T.cmd s.shared := funext (cmd_of_pool rfl)
  have hmsg : T.msg sh = T.msg s.shared := funext (msg_of_pool rfl)
  have htrade := mentions_expand (T.cmd s.shared) hc [handler] b
  have hsum := sum_update s.shared.mq (fun l ↦ (l.filterMap (T.msg s.shared)).count b) i tail
  have hsplit : ((m :: tail).filterMap (T.msg s.shared)).count b =
      ([m].filterMap (T.msg s.shared)).count b + (tail.filterMap (T.msg s.shared)).count b := by
    rw [← List.count_append, ← List.filterMap_append]
    rfl
  rw [hmq, hsplit] at hsum
  show mentions (T.cmd sh) (Function.update s.threads i ([handler] ++ rest)) b +
    (∑ t, ((Function.update s.shared.mq i tail t).filterMap (T.msg sh)).count b) + _ + _ = _
  rw [hcmd, hmsg, total, queued]
  omega

/-- A message is put into a queue. -/
theorem total_posted {t : ι} {m : MsgId} (hc : s.threads i = .post t m :: rest) (b : β) :
    T.total ⟨{ s.shared with mq := Function.update s.shared.mq t (s.shared.mq t ++ [m]) },
        Function.update s.threads i ([.semPost t] ++ rest)⟩ b +
        ([.post t m].filterMap (T.cmd s.shared)).count b =
      T.total s b + ([.semPost t].filterMap (T.cmd s.shared)).count b +
        ([m].filterMap (T.msg s.shared)).count b := by
  let sh : Shared ι σ :=
    { s.shared with mq := Function.update s.shared.mq t (s.shared.mq t ++ [m]) }
  have hcmd : T.cmd sh = T.cmd s.shared := funext (cmd_of_pool rfl)
  have hmsg : T.msg sh = T.msg s.shared := funext (msg_of_pool rfl)
  have htrade := mentions_expand (T.cmd s.shared) hc [.semPost t] b
  have hsum := sum_update s.shared.mq (fun l ↦ (l.filterMap (T.msg s.shared)).count b) t
    (s.shared.mq t ++ [m])
  rw [List.filterMap_append, List.count_append] at hsum
  show mentions (T.cmd sh) (Function.update s.threads i ([.semPost t] ++ rest)) b +
    (∑ u, ((Function.update s.shared.mq t (s.shared.mq t ++ [m]) u).filterMap
      (T.msg sh)).count b) + _ = _
  rw [hcmd, hmsg, total, queued]
  omega

end Tally

end Mblue
