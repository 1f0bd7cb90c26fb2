import Mblue.System.Invariant

/-!
# What `send_message` returns

`send_message`, `ipc_invoke` and `template_msg_post` with their return values, executed by one
thread without interruption (`sendMessage`). It is the same code as the commands `send`, `post`,
`semPost` and `syncCheck` of `System/Machine.lean`: `run_sendMessage` says that a thread which is not
interrupted goes through exactly these states. A synchronous call waits at the end, for as long as
the other tasks need; `pend` is what that wait returns, and the state is the one in which it begins.

`TellsTruth` is what a caller would like to conclude from the return value: `MBLUE_OK` means that the
message is in its destination's queue, an error means that nothing happened. **It holds in two cases
only** (`tellsTruth_iff`): there was no free message, or the queue had room and the call did not go
wrong after the message was queued. `template_msg_post` returns `MBLUE_OK` for a message that a full
queue refused; and the checks that `ipc_invoke` makes afterwards, of the source and of the wait,
report an error for a message that is queued.
-/

set_option linter.unusedSectionVars false

namespace Mblue

variable {ι σ : Type} [DecidableEq ι] [DecidableEq σ] (cfg : Config ι σ)

/-! ### The functions -/

/-- `template_msg_post`: it returns `MBLUE_OK` whatever `queue_add` returns. -/
def templateMsgPost (t : ι) (m : MsgId) (sh : Shared ι σ) : MblueErrcode × Shared ι σ :=
  match sh.queueAdd cfg t m with
  | none => (.ok, sh)
  | some sh' => (.ok, { sh' with msgSem := Function.update sh'.msgSem t (sh'.msgSem t + 1) })

/-- `ipc_invoke` of a message to the task `dst`. -/
def ipcInvoke (dst : ι) (m : MsgId) (pend : MblueErrcode) (sh : Shared ι σ) :
    MblueErrcode × Shared ι σ :=
  let r := templateMsgPost cfg dst m sh
  if r.1 ≠ .ok then (.errSysbus, r.2)
  else if (r.2.pool m).type = some .syncCall then
    if (r.2.pool m).src = .null then (.errSysbus, r.2) else (pend, r.2)
  else (.ok, r.2)

/-- `send_message`. -/
def sendMessage (a : SendArgs ι σ) (pend : MblueErrcode) (sh : Shared ι σ) :
    Option (MblueErrcode × Shared ι σ) :=
  match sh.alloc (initMessage cfg a) with
  | none => some (.errNomem, sh)
  | some (m, sh') =>
    (cfg.context (a.dst.getD cfg.bus)).map fun dst ↦ ipcInvoke cfg dst m pend sh'

/-- What the wait at the end of `ipc_invoke` leaves to do. -/
def waits (a : SendArgs ι σ) : List (Cmd ι σ) :=
  match a.type, a.src with
  | .syncCall, .task t => [.tpend t a.out]
  | _, _ => []

variable {cfg} {a : SendArgs ι σ} {pend : MblueErrcode} {sh : Shared ι σ}

theorem initMessage_type : (initMessage cfg a).type = some a.type := getType_mkCode _ _ _

theorem templateMsgPost_of_full {t : ι} {m : MsgId} (h : cfg.capacity t ≤ (sh.mq t).length) :
    templateMsgPost cfg t m sh = (.ok, sh) := by
  rw [templateMsgPost, Shared.queueAdd, if_pos h]

theorem templateMsgPost_of_room {t : ι} {m : MsgId} (h : (sh.mq t).length < cfg.capacity t) :
    templateMsgPost cfg t m sh = (.ok, { sh with
      mq := Function.update sh.mq t (sh.mq t ++ [m])
      msgSem := Function.update sh.msgSem t (sh.msgSem t + 1) }) := by
  rw [templateMsgPost, Shared.queueAdd, if_neg (Nat.not_le_of_lt h)]

theorem templateMsgPost_fst (t : ι) (m : MsgId) : (templateMsgPost cfg t m sh).1 = .ok := by
  rcases Nat.lt_or_ge (sh.mq t).length (cfg.capacity t) with h | h
  · rw [templateMsgPost_of_room h]
  · rw [templateMsgPost_of_full h]

theorem templateMsgPost_pool (t : ι) (m : MsgId) :
    (templateMsgPost cfg t m sh).2.pool = sh.pool := by
  rcases Nat.lt_or_ge (sh.mq t).length (cfg.capacity t) with h | h
  · rw [templateMsgPost_of_room h]
  · rw [templateMsgPost_of_full h]

theorem templateMsgPost_msgList (t : ι) (m : MsgId) :
    (templateMsgPost cfg t m sh).2.msgList = sh.msgList := by
  rcases Nat.lt_or_ge (sh.mq t).length (cfg.capacity t) with h | h
  · rw [templateMsgPost_of_room h]
  · rw [templateMsgPost_of_full h]

theorem templateMsgPost_count (t : ι) (m : MsgId) :
    (templateMsgPost cfg t m sh).2.count = sh.count := by
  rcases Nat.lt_or_ge (sh.mq t).length (cfg.capacity t) with h | h
  · rw [templateMsgPost_of_room h]
  · rw [templateMsgPost_of_full h]

/-- After the post nothing changes any more. -/
theorem ipcInvoke_snd (t : ι) (m : MsgId) :
    (ipcInvoke cfg t m pend sh).2 = (templateMsgPost cfg t m sh).2 := by
  unfold ipcInvoke
  dsimp only
  split
  · rfl
  · split
    · split <;> rfl
    · rfl

/-- When `ipc_invoke` returns `MBLUE_OK`: the queue plays no part. -/
theorem ipcInvoke_fst_iff (t : ι) (m : MsgId) : (ipcInvoke cfg t m pend sh).1 = .ok ↔
    ¬((sh.pool m).type = some .syncCall ∧ ((sh.pool m).src = .null ∨ pend ≠ .ok)) := by
  unfold ipcInvoke
  dsimp only
  rw [if_neg (fun h ↦ h (templateMsgPost_fst t m)), templateMsgPost_pool]
  by_cases htype : (sh.pool m).type = some .syncCall
  · rw [if_pos htype]
    by_cases hsrc : (sh.pool m).src = .null
    · rw [if_pos hsrc]
      simp [htype, hsrc]
    · rw [if_neg hsrc]
      simp [htype, hsrc]
  · rw [if_neg htype]
    simp [htype]

theorem alloc_eq_none_iff {content : Message ι σ} :
    sh.alloc content = none ↔ sh.count = 0 ∨ sh.msgList = [] := by
  unfold Shared.alloc
  cases sh.msgList with
  | nil => simp
  | cons m rest =>
    by_cases h : sh.count = 0 <;> simp [h]

/-! ### The same code as the machine's -/

/-- One command of a thread, executed. -/
theorem run_runCmd {th : ι → List (Cmd ι σ)} {i : ι} {c : Cmd ι σ} {cs rest : List (Cmd ι σ)}
    {sh' : Shared ι σ} (l : Choice ι σ) (hc : th i = c :: rest)
    (hrun : runCmd cfg i c l sh = some (sh', cs)) :
    Run (system cfg).step (fun _ _ ↦ True) ⟨sh, th⟩ ⟨sh', Function.update th i (cs ++ rest)⟩ :=
  .single trivial ((system cfg).step_eq_some_iff.2 ⟨_, _, _, _, hc, hrun, rfl⟩)

variable (cfg) in
/-- A post, and its semaphore when the queue has room. -/
theorem run_templateMsgPost {th : ι → List (Cmd ι σ)} {i t : ι} {m : MsgId}
    {rest : List (Cmd ι σ)} (hc : th i = .post t m :: rest) :
    ∃ u, Run (system cfg).step (fun _ _ ↦ True) ⟨sh, th⟩ u ∧
      u.shared = (templateMsgPost cfg t m sh).2 ∧ u.threads i = rest := by
  rcases Nat.lt_or_ge (sh.mq t).length (cfg.capacity t) with hroom | hfull
  · have hpost : runCmd cfg i (.post t m) .go sh =
        some ({ sh with mq := Function.update sh.mq t (sh.mq t ++ [m]) }, [.semPost t]) := by
      rw [runCmd, runPost, Shared.queueAdd, if_neg (Nat.not_le_of_lt hroom)]
    refine ⟨_, (run_runCmd .go hc hpost).trans (run_runCmd .go (Function.update_self _ _ _) rfl),
      ?_, Function.update_self _ _ _⟩
    rw [templateMsgPost_of_room hroom]
  · have hpost : runCmd cfg i (.post t m) .go sh = some (sh, []) := by
      rw [runCmd, runPost, Shared.queueAdd, if_pos hfull]
    refine ⟨_, run_runCmd .go hc hpost, ?_, Function.update_self _ _ _⟩
    rw [templateMsgPost_of_full hfull]

/-- **A thread that is not interrupted goes through `send_message`.** -/
theorem run_sendMessage {s : State ι σ} {i : ι} {rest : List (Cmd ι σ)}
    {r : MblueErrcode × Shared ι σ} (hc : s.threads i = .send a :: rest)
    (hsrc : ∀ n, a.type = .syncCall → a.src ≠ .system n)
    (h : sendMessage cfg a pend s.shared = some r) :
    ∃ t, Run (system cfg).step (fun _ _ ↦ True) s t ∧ t.shared = r.2 ∧
      t.threads i = (if s.shared.alloc (initMessage cfg a) = none then [] else waits a) ++ rest := by
  unfold sendMessage at h
  split at h
  · next hnone =>
    cases h
    have hrun : runCmd cfg i (.send a) .go s.shared = some (s.shared, []) := by
      rw [runCmd, runSend, hnone]
    refine ⟨_, run_runCmd .go hc hrun, rfl, ?_⟩
    rw [if_pos hnone]
    exact Function.update_self _ _ _
  · next m sh₁ halloc =>
    obtain ⟨t, hctx, rfl⟩ := Option.map_eq_some_iff.1 h
    have hpool : sh₁.pool m = initMessage cfg a := by
      obtain ⟨_, -, rfl⟩ := alloc_eq_some halloc
      exact Function.update_self _ _ _
    have hsend : runCmd cfg i (.send a) .go s.shared =
        some (sh₁, [.post t m, .syncCheck m a.out]) := by
      rw [runCmd, runSend, halloc]
      simp only [hctx, Option.map_some]
    obtain ⟨u, hu, hushared, huthreads⟩ := run_templateMsgPost cfg (Function.update_self i
      ([.post t m, .syncCheck m a.out] ++ rest) s.threads)
    -- nobody else runs in between, so the request is as it was sent
    have hcheck : runCmd cfg i (.syncCheck m a.out) .go u.shared = some (u.shared, waits a) := by
      have hmsg : u.shared.pool m = initMessage cfg a := by
        rw [hushared, templateMsgPost_pool, hpool]
      rw [runCmd, runSyncCheck, hmsg, initMessage_type, waits]
      by_cases htype : a.type = .syncCall
      · rw [htype, if_pos rfl]
        have hmsrc : (initMessage cfg a).src = a.src := rfl
        rw [hmsrc]
        cases hs : a.src with
        | null => rfl
        | task t => rfl
        | system n => exact absurd hs (hsrc n htype)
      · rw [if_neg (fun heq ↦ htype (Option.some.inj heq))]
        cases ht : a.type with
        | syncCall => exact absurd ht htype
        | _ => rfl
    refine ⟨_, ((run_runCmd .go hc hsend).trans hu).trans (run_runCmd .go huthreads hcheck), ?_, ?_⟩
    · rw [ipcInvoke_snd]
      exact hushared
    · rw [if_neg (by rw [halloc]; exact Option.some_ne_none _)]
      exact Function.update_self _ _ _

/-! ### The truth of the return value -/

/-- `MBLUE_OK` means that the message is in its destination's queue, an error that no queue and no
free message changed. -/
structure TellsTruth (cfg : Config ι σ) (a : SendArgs ι σ) (sh : Shared ι σ)
    (r : MblueErrcode × Shared ι σ) : Prop where
  of_ok : r.1 = .ok → ∃ t m, cfg.context (a.dst.getD cfg.bus) = some t ∧ m ∈ sh.msgList ∧
    r.2.pool m = initMessage cfg a ∧ r.2.mq = Function.update sh.mq t (sh.mq t ++ [m])
  of_err : r.1 ≠ .ok → r.2.mq = sh.mq ∧ r.2.msgList.Perm sh.msgList

/-- **When `send_message` tells the truth.** -/
theorem tellsTruth_iff {t : ι} (hctx : cfg.context (a.dst.getD cfg.bus) = some t)
    (pend : MblueErrcode) (sh : Shared ι σ) :
    ∃ r, sendMessage cfg a pend sh = some r ∧ (TellsTruth cfg a sh r ↔
      (sh.count = 0 ∨ sh.msgList = []) ∨ (sh.mq t).length < cfg.capacity t ∧
        ¬(a.type = .syncCall ∧ (a.src = .null ∨ pend ≠ .ok))) := by
  cases halloc : sh.alloc (initMessage cfg a) with
  | none =>
    refine ⟨(.errNomem, sh), by rw [sendMessage, halloc], ?_⟩
    refine iff_of_true ⟨?_, fun _ ↦ ⟨rfl, .refl _⟩⟩ (.inl (alloc_eq_none_iff.1 halloc))
    intro hok
    cases hok
  | some res =>
    obtain ⟨m, sh₁⟩ := res
    have hsome : ¬(sh.count = 0 ∨ sh.msgList = []) := fun hnone ↦ by
      rw [alloc_eq_none_iff.2 hnone] at halloc
      cases halloc
    obtain ⟨free, hfree, hsh⟩ := alloc_eq_some halloc
    have hmq : sh₁.mq = sh.mq := by rw [hsh]
    have hlist : sh₁.msgList = free := by rw [hsh]
    have hpool : sh₁.pool m = initMessage cfg a := by
      rw [hsh]
      exact Function.update_self _ _ _
    -- a message has left the free list, so only `MBLUE_OK` can be the truth
    have hlost : ¬(ipcInvoke cfg t m pend sh₁).2.msgList.Perm sh.msgList := fun hperm ↦ by
      have hlen := hperm.length_eq
      rw [ipcInvoke_snd, templateMsgPost_msgList, hlist, hfree, List.length_cons] at hlen
      omega
    have hfst : (ipcInvoke cfg t m pend sh₁).1 = .ok ↔
        ¬(a.type = .syncCall ∧ (a.src = .null ∨ pend ≠ .ok)) := by
      rw [ipcInvoke_fst_iff, hpool, initMessage_type, Option.some.injEq]
      rfl
    refine ⟨ipcInvoke cfg t m pend sh₁, by rw [sendMessage, halloc]; simp only [hctx,
      Option.map_some], ⟨fun htruth ↦ .inr ?_, ?_⟩⟩
    · have hok : (ipcInvoke cfg t m pend sh₁).1 = .ok := by
        by_contra hne
        exact hlost (htruth.of_err hne).2
      refine ⟨?_, hfst.1 hok⟩
      by_contra hfull
      obtain ⟨t', m', hctx', -, -, hqueue⟩ := htruth.of_ok hok
      obtain rfl : t = t' := Option.some.inj (hctx.symm.trans hctx')
      have hfull' : cfg.capacity t ≤ (sh₁.mq t).length := by
        rw [hmq]
        exact Nat.le_of_not_lt hfull
      rw [ipcInvoke_snd, templateMsgPost_of_full hfull', hmq] at hqueue
      have hlen := congrArg (fun f : ι → List MsgId ↦ (f t).length) hqueue
      simp only [Function.update_self, List.length_append, List.length_singleton] at hlen
      omega
    · rintro (hnone | ⟨hroom, hgood⟩)
      · exact absurd hnone hsome
      · refine ⟨fun _ ↦ ⟨t, m, hctx, hfree ▸ List.mem_cons_self, ?_, ?_⟩,
          fun hne ↦ absurd (hfst.2 hgood) hne⟩
        · rw [ipcInvoke_snd, templateMsgPost_pool, hpool]
        · rw [ipcInvoke_snd, templateMsgPost_of_room (by rw [hmq]; exact hroom), hmq]

/-- A broadcast of task `2`. -/
def sampleBroadcast : SendArgs (Fin 3) Bool :=
  drawnArgs (.init 0) (.task 2) .signal mblueLogService 0 none 0 none

/-- The first message finds room in the queue of the bus. -/
theorem tellsTruth_first : ∃ r,
    sendMessage (.small 1 [] []) sampleBroadcast .ok (.init 0) = some r ∧
      TellsTruth (.small 1 [] []) sampleBroadcast (.init 0) r := by
  have hctx : (Config.small 1 [] []).context
      (sampleBroadcast.dst.getD (Config.small 1 [] []).bus) = some 0 := rfl
  obtain ⟨r, hr, hiff⟩ := tellsTruth_iff hctx .ok (.init 0)
  exact ⟨r, hr, hiff.2 (.inr ⟨by decide, by decide⟩)⟩

/-- The second one finds the queue full, and is lost with `MBLUE_OK`. -/
theorem not_tellsTruth_second : ∃ r₁ r₂,
    sendMessage (.small 1 [] []) sampleBroadcast .ok (.init 0) = some r₁ ∧
      sendMessage (.small 1 [] []) sampleBroadcast .ok r₁.2 = some r₂ ∧ r₂.1 = .ok ∧
      ¬TellsTruth (.small 1 [] []) sampleBroadcast r₁.2 r₂ := by
  refine ⟨_, _, rfl, rfl, rfl, fun htruth ↦ ?_⟩
  obtain ⟨t, m, hctx, -, -, hmq⟩ := htruth.of_ok rfl
  obtain rfl : 0 = t := Option.some.inj hctx
  have hlen := congrArg (fun f : Fin 3 → List MsgId ↦ (f 0).length) hmq
  simp only [Function.update_self, List.length_append, List.length_singleton] at hlen
  exact absurd hlen (by decide)

end Mblue
