import Mblue.System.SignalEvents
import Mblue.System.Tokens

/-!
# One hop of a signal

A signal goes from the thread that sends it to the bus, and its replicas go from the bus to the tasks
of the subscribers. Both ways look the same: the message is about to be posted by a thread, then it
stands in the queue of its destination's task, then its handler is about to start, and then the trace
says that it has. `hop` puts together the draws of the signals at these four places, the oldest
first.

A step appends to this list what it sets out (`leaving`), unless it finds no message for a signal
(`hop_move`): a hop neither reorders signals, nor drops or duplicates them.
-/

set_option linter.unusedSectionVars false

namespace Mblue

variable {ι σ : Type} [DecidableEq ι] [DecidableEq σ]

/-! ### The places on a hop -/

/-- The draw of a message with this destination. -/
def arriving (ms : σ) (sh : Shared ι σ) (m : MsgId) : Option ℕ :=
  if (sh.pool m).dst = some ms then some (sh.pool m).draw else none

/-- The draw of the signal to the segment that a command posts or sends. -/
def posting (cfg : Config ι σ) (ms : σ) (sh : Shared ι σ) : Cmd ι σ → Option ℕ
  | .send a => if a.dst.getD cfg.bus = ms then some a.draw else none
  | .post _ m => arriving ms sh m
  | _ => none

/-- The draw of the signal to the segment whose handling a command starts. -/
def handling (ms : σ) (sh : Shared ι σ) : Cmd ι σ → Option ℕ
  | .busSignal m | .signalHandler _ m => arriving ms sh m
  | _ => none

/-- The draw of the signal to the segment whose handling an event says has started: the bus relays,
the others handle. -/
def started (cfg : Config ι σ) (ms : σ) : Event ι σ → Option ℕ
  | .relayed d _ _ => if cfg.bus = ms then some d else none
  | .handled ms' d => if ms' = ms then some d else none
  | _ => none

/-- **The signals on the way** from thread `j` to the segment `ms` on task `t`, and those that have
arrived, the oldest first; of these the draws that `p` selects. -/
def hop (cfg : Config ι σ) (ms : σ) (t j : ι) (p : ℕ → Bool) (s : State ι σ) : List ℕ :=
  ((signalEvents s.shared).filterMap (started cfg ms) ++
    (s.threads t).filterMap (handling ms s.shared) ++
    (s.shared.mq t).filterMap (arriving ms s.shared) ++
    (s.threads j).filterMap (posting cfg ms s.shared)).filter p

/-- The draws of the signals that a step sets out to the segment. -/
def leaving (cfg : Config ι σ) (ms : σ) (i : ι) (sh : Shared ι σ) :
    Cmd ι σ → Choice ι σ → List ℕ
  | .userCode _, .api f => (callApi cfg i sh f).2.filterMap (posting cfg ms sh)
  | .busSignalLoop m (ms' :: _), _ =>
    if ms' = ms ∧ (cfg.context ms').isSome then [(sh.pool m).draw] else []
  | _, _ => []

/-- There is no free message for a signal of the hop. -/
def Loses (cfg : Config ι σ) (ms : σ) (p : ℕ → Bool) (c : Cmd ι σ) (sh : Shared ι σ) : Prop :=
  ∃ b, c = .send b ∧ sh.alloc (initMessage cfg b) = none ∧ b.dst.getD cfg.bus = ms ∧
    p b.draw = true

/-! ### One step -/

section Step

variable [Fintype ι] {cfg : Config ι σ} {s : State ι σ} {i t j : ι} {ms : σ} {p : ℕ → Bool}
  {c : Cmd ι σ} {a : Choice ι σ} {rest cs : List (Cmd ι σ)} {sh' : Shared ι σ} {m : MsgId}

theorem arriving_congr {sh sh' : Shared ι σ} (h : (sh.pool m).SameBut (sh'.pool m)) :
    arriving ms sh' m = arriving ms sh m := by
  rw [arriving, arriving, h.2, Message.draw_eq h.1]

theorem posting_congr {sh sh' : Shared ι σ}
    (h : ∀ m, c.msg? = some m → (sh.pool m).SameBut (sh'.pool m)) :
    posting cfg ms sh' c = posting cfg ms sh c := by
  cases c with
  | post u m => exact arriving_congr (h m rfl)
  | _ => rfl

theorem handling_congr {sh sh' : Shared ι σ}
    (h : ∀ m, c.msg? = some m → (sh.pool m).SameBut (sh'.pool m)) :
    handling ms sh' c = handling ms sh c := by
  cases c with
  | busSignal m | signalHandler ms' m => exact arriving_congr (h m rfl)
  | _ => rfl

/-- What starts work on a message is the only such command of its thread. -/
theorem handling_eq_none (h : c.core = 0) (sh : Shared ι σ) : handling ms sh c = none := by
  cases c <;> first | rfl | cases h

/-- What posts or sends comes before the code around it. -/
theorem posting_eq_none (h : 0 < c.rank) (sh : Shared ι σ) : posting cfg ms sh c = none := by
  cases c <;> first | rfl | cases h

/-- **The places on a hop, one step on.** What the other commands stand for stays. -/
theorem hop_parts (h : Good cfg s) (hc : s.threads i = c :: rest)
    (he : Effect cfg i c a s.shared sh' cs) (ms : σ) (t j : ι) (p : ℕ → Bool) : ∃ X H P : List ℕ,
    (t = i → c.core = 1 → H = []) ∧ (j = i → c.rank = 2 → P = []) ∧
    hop cfg ms t j p s = X ++
      ((if t = i then ([c].filterMap (handling ms s.shared)).filter p else []) ++ H) ++
      ((s.shared.mq t).filterMap (arriving ms s.shared)).filter p ++
      ((if j = i then ([c].filterMap (posting cfg ms s.shared)).filter p else []) ++ P) ∧
    hop cfg ms t j p ⟨sh', Function.update s.threads i (cs ++ rest)⟩ =
      (X ++ ((announced cfg i s.shared c a).filterMap (started cfg ms)).filter p) ++
      ((if t = i then (cs.filterMap (handling ms sh')).filter p else []) ++ H) ++
      ((sh'.mq t).filterMap (arriving ms s.shared)).filter p ++
      ((if j = i then (cs.filterMap (posting cfg ms sh')).filter p else []) ++ P) := by
  have hmove := move_of_effect he
  have hkeep : ∀ k, ∀ d ∈ Function.update s.threads i rest k, ∀ m, d.msg? = some m →
      (s.shared.pool m).SameBut (sh'.pool m) := fun k d hd m hm ↦ h.kept hc hmove hd hm
  have hqueue : ∀ m ∈ sh'.mq t, arriving ms sh' m = arriving ms s.shared m := by
    intro m hm
    rcases hmove.mq_origin hm with hold | rfl
    · exact arriving_congr (h.kept_of_mq hc hmove hold)
    · have hfree := h.not_free (Good.mem_head hc) rfl
      exact arriving_congr ⟨hmove.header_eq hfree, hmove.dst_eq hfree fun heq ↦ by cases heq⟩
  refine ⟨((signalEvents s.shared).filterMap (started cfg ms)).filter p,
    ((Function.update s.threads i rest t).filterMap (handling ms s.shared)).filter p,
    ((Function.update s.threads i rest j).filterMap (posting cfg ms s.shared)).filter p,
    ?_, ?_, ?_, ?_⟩
  · -- a task handles one message at a time
    rintro rfl hcore
    rw [Function.update_self, List.filterMap_eq_nil_iff.2 fun d hd ↦
      handling_eq_none (h.core_unique hc hcore hd) _]
    rfl
  · -- and what it is about to post comes before everything else
    rintro rfl hrank
    have hordered := h.ordered j
    rw [hc, List.pairwise_cons] at hordered
    rw [Function.update_self, List.filterMap_eq_nil_iff.2 fun d hd ↦ posting_eq_none ?_ _]
    · rfl
    · have hprec := hordered.1 d hd
      unfold precedes at hprec
      omega
  · rw [hop, filterMap_head (f := handling ms s.shared) hc,
      filterMap_head (f := posting cfg ms s.shared) hc]
    split_ifs <;> simp only [List.filter_append, List.nil_append]
  · rw [hop, he.signalEvents_eq,
      filterMap_expand (handling ms sh') cs fun d hd ↦ handling_congr (hkeep t d hd),
      filterMap_expand (posting cfg ms sh') cs fun d hd ↦ posting_congr (hkeep j d hd),
      List.filterMap_congr hqueue]
    split_ifs <;> simp only [List.filterMap_append, List.filter_append, List.nil_append]

/-- A step on a message of the hop, or on none: a message whose handling starts was the first that
waits for it. -/
theorem hop_pass (h : Good cfg s) (hc : s.threads i = c :: rest)
    (he : Effect cfg i c a s.shared sh' cs)
    (hhandling : ((announced cfg i s.shared c a).filterMap (started cfg ms)).filter p ++
      (cs.filterMap (handling ms sh')).filter p = ([c].filterMap (handling ms s.shared)).filter p)
    (hmq : sh'.mq = s.shared.mq)
    (hposting : (cs.filterMap (posting cfg ms sh')).filter p =
      ([c].filterMap (posting cfg ms s.shared)).filter p)
    (htask : t ≠ i → ((announced cfg i s.shared c a).filterMap (started cfg ms)).filter p = []) :
    hop cfg ms t j p ⟨sh', Function.update s.threads i (cs ++ rest)⟩ = hop cfg ms t j p s := by
  obtain ⟨X, H, P, -, -, hbefore, hafter⟩ := hop_parts h hc he ms t j p
  rw [hafter, hbefore, hmq, hposting]
  by_cases ht : t = i
  · rw [if_pos ht, if_pos ht, ← hhandling]
    simp only [List.append_assoc]
  · rw [if_neg ht, if_neg ht, htask ht, List.append_nil]

/-- A step of the code around the calls: what it posts or sends comes last. -/
theorem hop_append (h : Good cfg s) (hc : s.threads i = c :: rest)
    (he : Effect cfg i c a s.shared sh' cs) (hrank : c.rank = 2)
    (hstarted : (announced cfg i s.shared c a).filterMap (started cfg ms) = [])
    (hhandling : cs.filterMap (handling ms sh') = [c].filterMap (handling ms s.shared))
    (hmq : sh'.mq = s.shared.mq) :
    hop cfg ms t j p ⟨sh', Function.update s.threads i (cs ++ rest)⟩ =
      hop cfg ms t j p s ++
        if j = i then (cs.filterMap (posting cfg ms sh')).filter p else [] := by
  obtain ⟨X, H, P, -, hP, hbefore, hafter⟩ := hop_parts h hc he ms t j p
  have hnone : [c].filterMap (posting cfg ms s.shared) = [] :=
    List.filterMap_eq_nil_iff.2 fun d hd ↦ posting_eq_none (by
      rw [List.mem_singleton.1 hd, hrank]
      decide) _
  rw [hafter, hbefore, hstarted, hhandling, hmq, hnone]
  by_cases hj : j = i
  · rw [if_pos hj, if_pos hj, hP hj hrank]
    simp
  · rw [if_neg hj, if_neg hj]
    simp

/-- A step that leaves the handlers alone. -/
theorem hop_quiet (h : Good cfg s) (hc : s.threads i = c :: rest)
    (he : Effect cfg i c a s.shared sh' cs)
    (hstarted : (announced cfg i s.shared c a).filterMap (started cfg ms) = [])
    (hhandling : cs.filterMap (handling ms sh') = [c].filterMap (handling ms s.shared))
    (hmq : sh'.mq = s.shared.mq)
    (hposting : (cs.filterMap (posting cfg ms sh')).filter p =
      ([c].filterMap (posting cfg ms s.shared)).filter p) :
    hop cfg ms t j p ⟨sh', Function.update s.threads i (cs ++ rest)⟩ = hop cfg ms t j p s :=
  hop_pass h hc he (by rw [hstarted, hhandling, List.filter_nil, List.nil_append]) hmq hposting
    fun _ ↦ by rw [hstarted, List.filter_nil]

omit [DecidableEq ι] [Fintype ι] in
/-- Two tokens that stand for the same. -/
theorem token_congr {β γ : Type} {f : β → Option ℕ} {g : γ → Option ℕ} {x : β} {y : γ}
    (h : f x = g y) : [x].filterMap f = [y].filterMap g := by
  rw [List.filterMap_cons, List.filterMap_cons, h]
  rfl

omit [DecidableEq ι] [Fintype ι] in
/-- A token is selected, or it is not. -/
theorem token_cases {β : Type} (f : β → Option ℕ) (x : β) (p : ℕ → Bool) :
    (∃ d, f x = some d ∧ p d = true ∧ ([x].filterMap f).filter p = [d]) ∨
      ([x].filterMap f).filter p = [] := by
  cases hx : f x with
  | none => exact .inr (by rw [List.filterMap_cons_none hx]; rfl)
  | some d =>
    rw [List.filterMap_cons_some hx, List.filterMap_nil]
    cases hp : p d with
    | false => exact .inr (List.filter_cons_of_neg (hp ▸ Bool.false_ne_true))
    | true => exact .inl ⟨d, rfl, hp, List.filter_cons_of_pos hp⟩

omit [DecidableEq ι] [Fintype ι] in
theorem filter_token {β : Type} {f : β → Option ℕ} {x : β} (h : ∀ d, f x = some d → p d ≠ true) :
    ([x].filterMap f).filter p = [] := by
  rcases token_cases f x p with ⟨d, hd, hp, -⟩ | hnil
  · exact absurd hp (h d hd)
  · exact hnil

theorem arriving_eq_some {sh : Shared ι σ} {d : ℕ} : arriving ms sh m = some d ↔
    (sh.pool m).dst = some ms ∧ (sh.pool m).draw = d := by
  rw [arriving, Option.ite_none_right_eq_some, Option.some.injEq]

/-! ### What a step does to a hop -/

/-- The message a task takes from its queue is handled next. -/
theorem hop_removed (h : Good cfg s) (hc : s.threads i = .remove :: rest) {n : MsgId}
    {tail : List MsgId} {ms' : σ} {type : MessageType} {handler : Cmd ι σ}
    (hmq : s.shared.mq i = n :: tail) (hdst : (s.shared.pool n).dst = some ms')
    (htype : (s.shared.pool n).type = some type)
    (hhandler : getHandler cfg ms' n type = some handler)
    (htyped : p (s.shared.pool n).draw = true → type = .signal) :
    hop cfg ms t j p ⟨{ s.shared with mq := Function.update s.shared.mq i tail },
      Function.update s.threads i ([handler] ++ rest)⟩ = hop cfg ms t j p s := by
  let sh' : Shared ι σ := { s.shared with mq := Function.update s.shared.mq i tail }
  have he : Effect cfg i .remove .go s.shared sh' [handler] :=
    .removed hmq hdst htype hhandler
  obtain ⟨X, H, P, hH, -, hbefore, hafter⟩ := hop_parts h hc he ms t j p
  have hhandling : ([handler].filterMap (handling ms sh')).filter p =
      ([n].filterMap (arriving ms s.shared)).filter p := by
    have hother : type ≠ .signal → ([n].filterMap (arriving ms s.shared)).filter p = [] :=
      fun hne ↦ filter_token fun d hd hp ↦ hne (htyped ((arriving_eq_some.1 hd).2 ▸ hp))
    cases handles_of_getHandler hhandler with
    | busSignal => rfl
    | signal => rfl
    | subscribe => exact (hother MessageType.noConfusion).symm
    | busCallReturn => exact (hother MessageType.noConfusion).symm
    | busCall hbus hcall | call hbus hcall =>
      exact (hother fun heq ↦ by rw [heq] at hcall; cases hcall).symm
  have hposting : [handler].filterMap (posting cfg ms sh') = [] := by
    cases handles_of_getHandler hhandler <;> rfl
  have hstarted : (announced cfg i s.shared .remove .go).filterMap (started cfg ms) = [] := rfl
  have hremove : [Cmd.remove].filterMap (posting cfg ms s.shared) = [] := rfl
  rw [hafter, hbefore, hhandling, hposting, hstarted, hremove]
  by_cases ht : t = i
  · have hqueue : sh'.mq t = tail := by
      rw [ht]
      exact Function.update_self _ _ _
    have hsplit : (n :: tail).filterMap (arriving ms s.shared) =
        [n].filterMap (arriving ms s.shared) ++ tail.filterMap (arriving ms s.shared) := by
      rw [← List.filterMap_append]
      rfl
    rw [if_pos ht, if_pos ht, hqueue, hH ht rfl, ht, hmq, hsplit, List.filter_append]
    simp [handling]
  · have hqueue : sh'.mq t = s.shared.mq t := Function.update_of_ne ht _ _
    rw [if_neg ht, if_neg ht, hqueue, List.filter_nil, List.append_nil]

/-- The message that is posted is the last of its queue. -/
theorem hop_posted (h : Good cfg s) {u : ι} (hc : s.threads i = .post u m :: rest)
    (hroom : (s.shared.mq u).length < cfg.capacity u) (hctx : cfg.context ms = some t)
    (hsole : ∀ d, arriving ms s.shared m = some d → p d = true → i = j) :
    hop cfg ms t j p ⟨{ s.shared with mq := Function.update s.shared.mq u (s.shared.mq u ++ [m]) },
      Function.update s.threads i ([.semPost u] ++ rest)⟩ = hop cfg ms t j p s := by
  let sh' : Shared ι σ :=
    { s.shared with mq := Function.update s.shared.mq u (s.shared.mq u ++ [m]) }
  have he : Effect cfg i (.post u m) .go s.shared sh' [.semPost u] := .postDone hroom
  obtain ⟨X, H, P, -, -, hbefore, hafter⟩ := hop_parts h hc he ms t j p
  obtain ⟨ms', hdst, hu⟩ := h.knows i _ (Good.mem_head hc)
  have hstarted : (announced cfg i s.shared (.post u m) .go).filterMap (started cfg ms) = [] := rfl
  have hnone : [Cmd.semPost u].filterMap (handling ms sh') =
    [Cmd.post u m].filterMap (handling ms s.shared) := rfl
  have hafterPost : [Cmd.semPost u].filterMap (posting cfg ms sh') = [] := rfl
  have hpost : ([Cmd.post u m].filterMap (posting cfg ms s.shared)).filter p =
    ([m].filterMap (arriving ms s.shared)).filter p := rfl
  rw [hafter, hbefore, hstarted, hnone, hafterPost, hpost]
  by_cases hmine : ∃ d, arriving ms s.shared m = some d ∧ p d = true
  · -- the message is one of the hop: its sender is `j`, and its queue the one of `t`
    obtain ⟨d, hd, hp⟩ := hmine
    obtain rfl := Option.some.inj (hdst.symm.trans (arriving_eq_some.1 hd).1)
    obtain rfl : t = u := Option.some.inj (hctx.symm.trans hu)
    have hqueue : sh'.mq t = s.shared.mq t ++ [m] := Function.update_self _ _ _
    rw [if_pos (hsole d hd hp).symm, if_pos (hsole d hd hp).symm, hqueue, List.filterMap_append,
      List.filter_append]
    simp
  · have hnil : ([m].filterMap (arriving ms s.shared)).filter p = [] :=
      filter_token fun d hd hp ↦ hmine ⟨d, hd, hp⟩
    have hqueue : ((sh'.mq t).filterMap (arriving ms s.shared)).filter p =
        ((s.shared.mq t).filterMap (arriving ms s.shared)).filter p := by
      by_cases htu : t = u
      · have hposted : sh'.mq t = s.shared.mq t ++ [m] := by
          rw [htu]
          exact Function.update_self _ _ _
        rw [hposted, List.filterMap_append, List.filter_append, hnil, List.append_nil]
      · have hother : sh'.mq t = s.shared.mq t := Function.update_of_ne htu _ _
        rw [hother]
    rw [hqueue, hnil, List.filter_nil, List.append_nil]

/-- The handling of a message starts on its destination's task. -/
theorem task_of_handling (h : Good cfg s) (hc : s.threads i = c :: rest) {d : ℕ}
    (hd : handling ms s.shared c = some d) (hctx : cfg.context ms = some t) : t = i := by
  have hknows := h.knows i c (Good.mem_head hc)
  cases c with
  | busSignal m =>
    obtain ⟨rfl, -, hdst⟩ := hknows
    obtain rfl := Option.some.inj (hdst.symm.trans (arriving_eq_some.1 hd).1)
    exact Option.some.inj (hctx.symm.trans cfg.context_bus)
  | signalHandler ms' m =>
    obtain ⟨hi, -, -, hdst⟩ := hknows
    obtain rfl := Option.some.inj (hdst.symm.trans (arriving_eq_some.1 hd).1)
    exact Option.some.inj (hctx.symm.trans hi)
  | _ => cases hd

/-- The call of a handler is no arrival, its start is. -/
theorem started_signalHandler (sh : Shared ι σ) (ms' : σ) (m : MsgId) :
    (announced cfg i sh (.signalHandler ms' m) a).filterMap (started cfg ms) =
      [Event.handled ms' (sh.pool m).draw].filterMap (started cfg ms) := by
  rw [announced]
  by_cases hsome : (findHandler (cfg.signalItems ms') (sh.pool m).minor).isSome = true
  · rw [if_pos hsome, List.filterMap_cons, List.filterMap_cons]
    rfl
  · rw [if_neg hsome]

/-- The handling of a message starts: it has arrived. -/
theorem hop_started (h : Good cfg s) (hc : s.threads i = c :: rest)
    (he : Effect cfg i c a s.shared sh' cs) (hctx : cfg.context ms = some t)
    (hstarted : (announced cfg i s.shared c a).filterMap (started cfg ms) =
      [c].filterMap (handling ms s.shared))
    (hhandling : cs.filterMap (handling ms sh') = []) (hmq : sh'.mq = s.shared.mq)
    (hposting : cs.filterMap (posting cfg ms sh') = [c].filterMap (posting cfg ms s.shared)) :
    hop cfg ms t j p ⟨sh', Function.update s.threads i (cs ++ rest)⟩ = hop cfg ms t j p s := by
  refine hop_pass h hc he ?_ hmq (by rw [hposting]) fun ht ↦ ?_
  · rw [hstarted, hhandling, List.filter_nil, List.append_nil]
  · rw [hstarted]
    exact filter_token fun d hd _ ↦ ht (task_of_handling h hc hd hctx)

/-- User code sets out what it calls `send_message` for. -/
theorem hop_called (h : Good cfg s) {k : UserCode ι σ} {f : Api ι σ}
    (hc : s.threads i = .userCode k :: rest)
    (he : Effect cfg i (.userCode k) (.api f) s.shared (callApi cfg i s.shared f).1
      ((callApi cfg i s.shared f).2 ++ [.userCode k])) :
    hop cfg ms t j p ⟨(callApi cfg i s.shared f).1, Function.update s.threads i
        (((callApi cfg i s.shared f).2 ++ [.userCode k]) ++ rest)⟩ =
      hop cfg ms t j p s ++
        if j = i then (leaving cfg ms i s.shared (.userCode k) (.api f)).filter p else [] := by
  have hstarted : (announced cfg i s.shared (.userCode k) (.api f)).filterMap (started cfg ms) =
      [] := by
    rw [announced]
    cases f.broadcasts? <;> rfl
  have hhandling : ((callApi cfg i s.shared f).2 ++ [Cmd.userCode k]).filterMap
      (handling ms (callApi cfg i s.shared f).1) = [] := by
    refine List.filterMap_eq_nil_iff.2 fun x hx ↦ ?_
    rcases List.mem_append.1 hx with hx | hx
    · rcases cmd_of_callApi hx with ⟨b, rfl⟩ | ⟨o, rfl⟩ <;> rfl
    · rw [List.mem_singleton.1 hx]
      rfl
  have hposting : (callApi cfg i s.shared f).2.filterMap
      (posting cfg ms (callApi cfg i s.shared f).1) =
        leaving cfg ms i s.shared (.userCode k) (.api f) :=
    List.filterMap_congr fun x hx ↦ by
      rcases cmd_of_callApi hx with ⟨b, rfl⟩ | ⟨o, rfl⟩ <;> rfl
  have huser : [Cmd.userCode k].filterMap (posting cfg ms (callApi cfg i s.shared f).1) = [] := rfl
  rw [hop_append h hc he rfl hstarted hhandling (sameMessages_callApi cfg i s.shared f).mq_eq,
    List.filterMap_append, huser, List.append_nil, hposting]

/-- The bus posts a replica. -/
theorem hop_replicated (h : Good cfg s) {ms' : σ} {subs : List σ} {u : ι} {r : MsgId}
    {sh₁ : Shared ι σ} (hc : s.threads i = .busSignalLoop m (ms' :: subs) :: rest)
    (hctx : cfg.context ms' = some u)
    (halloc : s.shared.alloc (replicate (s.shared.pool m) ms') = some (r, sh₁))
    (he : Effect cfg i (.busSignalLoop m (ms' :: subs)) a s.shared
      (sh₁.log (.replica (s.shared.pool m) (replicate (s.shared.pool m) ms')))
      [.post u r, .busSignalLoop m subs]) :
    hop cfg ms t j p ⟨sh₁.log (.replica (s.shared.pool m) (replicate (s.shared.pool m) ms')),
        Function.update s.threads i ([.post u r, .busSignalLoop m subs] ++ rest)⟩ =
      hop cfg ms t j p s ++
        if j = i then (leaving cfg ms i s.shared (.busSignalLoop m (ms' :: subs)) a).filter p
        else [] := by
  have hstarted : (announced cfg i s.shared (.busSignalLoop m (ms' :: subs)) a).filterMap
      (started cfg ms) = [] := by
    rw [announced]
    split <;> rfl
  obtain ⟨free, -, rfl⟩ := alloc_eq_some halloc
  rw [hop_append h hc he rfl hstarted rfl rfl]
  have hpool : Function.update s.shared.pool r (replicate (s.shared.pool m) ms') r =
    replicate (s.shared.pool m) ms' := Function.update_self _ _ _
  have hcopy : arriving ms (Shared.log { s.shared with
      count := s.shared.count - 1, msgList := free,
      pool := Function.update s.shared.pool r (replicate (s.shared.pool m) ms') }
        (.replica (s.shared.pool m) (replicate (s.shared.pool m) ms'))) r =
      if ms' = ms then some (s.shared.pool m).draw else none := by
    show (if (Function.update s.shared.pool r (replicate (s.shared.pool m) ms') r).dst = some ms then
      some (Function.update s.shared.pool r (replicate (s.shared.pool m) ms') r).draw else none) = _
    rw [hpool]
    exact if_congr Option.some_inj rfl rfl
  have hfresh : [Cmd.post u r, .busSignalLoop m subs].filterMap (posting cfg ms (Shared.log
      { s.shared with
        count := s.shared.count - 1, msgList := free,
        pool := Function.update s.shared.pool r (replicate (s.shared.pool m) ms') }
      (.replica (s.shared.pool m) (replicate (s.shared.pool m) ms')))) =
      leaving cfg ms i s.shared (.busSignalLoop m (ms' :: subs)) a := by
    refine (token_congr (g := fun _ ↦ _) (y := ()) hcopy).trans ?_
    rw [leaving, hctx]
    by_cases hms : ms' = ms
    · rw [if_pos hms, if_pos ⟨hms, rfl⟩]
      rfl
    · rw [if_neg hms, if_neg fun hand ↦ hms hand.1]
      rfl
  rw [hfresh]

/-- **What a step does to a hop**, if the signals on it are sent by one thread and no queue is full
for them. -/
theorem hop_move (h : Good cfg s) (hc : s.threads i = c :: rest)
    (he : Effect cfg i c a s.shared sh' cs) (hctx : cfg.context ms = some t) (hzero : p 0 = false)
    (htyped : ∀ m, m ∉ s.shared.msgList → p (s.shared.pool m).draw = true →
      (s.shared.pool m).type = some .signal)
    (hsole : ∀ k, ∀ d ∈ s.threads k, ∀ x, posting cfg ms s.shared d = some x → p x = true → k = j)
    (hroom : ∀ u m, c = .post u m → (s.shared.pool m).type = some .signal →
      (s.shared.mq u).length < cfg.capacity u) :
    hop cfg ms t j p ⟨sh', Function.update s.threads i (cs ++ rest)⟩ =
        hop cfg ms t j p s ++ (if j = i then (leaving cfg ms i s.shared c a).filter p else []) ∨
      Loses cfg ms p c s.shared ∧
        (hop cfg ms t j p ⟨sh', Function.update s.threads i (cs ++ rest)⟩).Sublist
          (hop cfg ms t j p s) := by
  have hmove := move_of_effect he
  have hknows := h.knows i c (Good.mem_head hc)
  have huse : ∀ m, c.msg? = some m → m ∉ s.shared.msgList :=
    fun m hm ↦ h.not_free (Good.mem_head hc) hm
  have hmq : c ≠ .remove → (∀ u m, c ≠ .post u m) → sh'.mq = s.shared.mq := hmove.mq_eq
  -- most steps set nothing out
  have hquiet : ∀ {l : List ℕ}, leaving cfg ms i s.shared c a = [] → l = hop cfg ms t j p s →
      l = hop cfg ms t j p s ++ (if j = i then (leaving cfg ms i s.shared c a).filter p else []) ∨
        Loses cfg ms p c s.shared ∧ l.Sublist (hop cfg ms t j p s) := by
    intro l hnil hl
    rw [hnil, List.filter_nil, ite_self, List.append_nil]
    exact .inl hl
  -- a request is no signal
  have hcall : ∀ {m}, c.msg? = some m → (s.shared.pool m).isCall = true →
      p (s.shared.pool m).draw ≠ true := fun hm hisCall hp ↦ by
    rw [Message.isCall_of_type (htyped _ (huse _ hm) hp)] at hisCall
    cases hisCall
  have heff := he
  cases he with
  | removed hqueue hdst htype hhandler =>
    refine hquiet rfl (hop_removed h hc hqueue hdst htype hhandler fun hp ↦ ?_)
    have hfree := h.not_free_of_mq (hqueue ▸ List.mem_cons_self)
    exact Option.some.inj (htype.symm.trans (htyped _ hfree hp))
  | userCall hmay => exact .inl (hop_called h hc heff)
  | sendFailed hnone =>
    rename_i b
    rcases token_cases (posting cfg ms s.shared) (.send b) p with ⟨d, hd, hp, hone⟩ | hnil
    · obtain ⟨hdst, hdraw⟩ := Option.ite_none_right_eq_some.1 hd
      obtain rfl := Option.some.inj hdraw
      obtain ⟨X, H, P, -, -, hbefore, hafter⟩ := hop_parts h hc heff ms t j p
      refine .inr ⟨⟨b, rfl, hnone, hdst, hp⟩, ?_⟩
      rw [hafter, hbefore]
      show List.Sublist (X ++ [] ++ (_ ++ H) ++ _ ++ _) (X ++ (_ ++ H) ++ _ ++ _)
      rw [List.append_nil]
      refine List.Sublist.append_left (List.Sublist.append_right ?_ P) _
      split_ifs
      · exact List.nil_sublist _
      · exact List.Sublist.refl _
    · exact hquiet rfl (hop_quiet h hc heff rfl rfl rfl hnil.symm)
  | sendDone halloc hcontext =>
    rename_i b n u
    refine hquiet rfl (hop_quiet h hc heff rfl rfl (hmq (by simp) (by simp)) ?_)
    obtain ⟨free, -, rfl⟩ := alloc_eq_some halloc
    have hposted : arriving ms { s.shared with
        count := s.shared.count - 1, msgList := free,
        pool := Function.update s.shared.pool n (initMessage cfg b) } n =
        posting cfg ms s.shared (.send b) := by
      show (if (Function.update s.shared.pool n (initMessage cfg b) n).dst = some ms then
        some (Function.update s.shared.pool n (initMessage cfg b) n).draw else none) = _
      rw [Function.update_self]
      exact if_congr Option.some_inj rfl rfl
    exact congrArg (List.filter p) (token_congr hposted)
  | postFull hfull =>
    rename_i u m
    refine hquiet rfl (hop_quiet h hc heff rfl rfl rfl (filter_token fun d hd hp ↦ ?_).symm)
    have htype := htyped m (huse m rfl) ((arriving_eq_some.1 hd).2.symm ▸ hp)
    exact absurd (hroom u m rfl htype) (Nat.not_lt_of_le hfull)
  | postDone hfits =>
    rename_i u m
    exact hquiet rfl (hop_posted h hc hfits hctx fun d hd hp ↦ hsole i _ (Good.mem_head hc) d hd hp)
  | signalUnheard hmajor hsubs | signalRelayed hmajor hsubs =>
    rename_i m major
    refine hquiet rfl (hop_started h hc heff hctx ?_ rfl rfl rfl)
    rw [announced, hmajor]
    exact token_congr (if_congr (by rw [hknows.2.2, Option.some.injEq]) rfl rfl)
  | signalUnhandled hno | signalCalled hsome hne =>
    refine hquiet rfl (hop_started h hc heff hctx ?_ rfl rfl rfl)
    rw [started_signalHandler]
    exact token_congr (if_congr (by rw [hknows.2.2.2, Option.some.injEq]) rfl rfl)
  | loopSkipped hcontext =>
    refine hquiet ?_ (hop_quiet h hc heff ?_ rfl rfl rfl)
    · rw [leaving, hcontext, Option.isSome_none, if_neg fun hand ↦ Bool.false_ne_true hand.2]
    · rw [announced, hcontext, Option.isSome_none, if_neg Bool.false_ne_true, List.filterMap_nil]
  | loopReplicated hcontext halloc => exact .inl (hop_replicated h hc hcontext halloc heff)
  | callNoEntry hmajor hnode hcontext hentry | callLinked hmajor hnode hcontext hentry =>
    refine hquiet rfl (hop_quiet h hc heff rfl rfl rfl ?_)
    refine filter_token (f := arriving ms _) fun d hd hp ↦ hcall rfl hknows.2.1 ?_
    have hdraw := (arriving_eq_some.1 hd).2
    rw [Message.draw_eq (hmove.header_eq (huse _ rfl))] at hdraw
    exact hdraw ▸ hp
  | serviceFinished | requestRefused =>
    refine hquiet rfl (hop_quiet h hc heff rfl rfl rfl ?_)
    refine filter_token (f := posting cfg ms s.shared) fun d hd hp ↦ ?_
    obtain rfl : 0 = d := Option.some.inj (Option.ite_none_right_eq_some.1 hd).2
    rw [hzero] at hp
    cases hp
  | finishedPayload | finishedPlain =>
    refine hquiet rfl (hop_quiet h hc heff ?_ rfl rfl rfl)
    rw [announced]
    split <;> rfl
  | tpendTaken hsem =>
    rename_i u o d tail
    cases o <;> exact hquiet rfl (hop_quiet h hc heff rfl rfl rfl rfl)
  | _ => exact hquiet rfl (hop_quiet h hc heff rfl rfl (hmq (by simp) (by simp)) rfl)

end Step

end Mblue
