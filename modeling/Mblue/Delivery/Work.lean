import Mblue.Delivery.Subscriptions
import Mblue.System.Tariff
import Mblue.System.Wakeups

/-!
# How much work is pending

Two tariffs. `workTariff` prices a command or a queued message by the number of steps it can still
lead to without user code calling another function, when no publish list is longer than `K`: a
signal for the bus costs nine steps for each subscriber, a request goes to its service and its
return comes back. `subscribeTariff` counts the subscriptions that are under way.

`Confined` is the condition under which the prices are right. A bus that is its own subscriber, or a
request that the bus finds under its own number, would be handled by the bus again and again.
-/

set_option linter.unusedSectionVars false

namespace Mblue

variable {ι σ : Type}

/-! ### Prices -/

/-- The steps a message of the type still takes when the bus is to handle it. -/
def MessageType.busWork (K : ℕ) : MessageType → ℕ
  | .subscribe => 2
  | .signal => 3 + 9 * K
  | .syncCall | .asyncCall => 22
  | .callReturn => 6

/-- The steps it takes when another segment is to handle it. -/
def MessageType.segmentWork : MessageType → ℕ
  | .signal => 4
  | .syncCall | .asyncCall => 17
  | .subscribe | .callReturn => 0

section Prices

variable [DecidableEq σ] (cfg : Config ι σ) (K : ℕ)

/-- The steps a queued message still takes. -/
def Message.work (msg : Message ι σ) : ℕ :=
  match msg.dst, msg.type with
  | some ms, some type => if ms = cfg.bus then type.busWork K else type.segmentWork
  | _, _ => 0

/-- The steps a command still takes, itself included. -/
def Cmd.work (pool : MsgId → Message ι σ) : Cmd ι σ → ℕ
  | .templateProc => 0
  | .remove | .tpend _ _ | .remoteReturn _ | .busSubscribe _ _ | .tpost _ _ | .freeNotifier _
  | .unlink _ _ | .release _ => 1
  | .complete _ _ => 2
  | .userCode .app | .userCode .log | .userCode (.notify _ _) => 1
  | .userCode (.signal _ _) => 3
  | .userCode (.service _ _ _ _) => 16
  | .send a => 7 + (initMessage cfg a).work cfg K
  | .post _ m => 4 + (pool m).work cfg K
  | .semPost _ => 3
  | .syncCheck _ _ | .handleSubscribe _ | .finish _ => 2
  | .busSignal _ => 3 + 9 * K
  | .busSignalLoop _ subs => 2 + 9 * subs.length
  | .busCall _ => 22
  | .busCallReturn _ => 6
  | .signalHandler _ _ => 4
  | .ipcHandler _ _ => 17

theorem Message.work_congr {x y : Message ι σ} (hheader : x.header = y.header)
    (hdst : x.dst = y.dst) : x.work cfg K = y.work cfg K := by
  rw [Message.work, Message.work, hdst, Message.type_eq hheader]

/-- The price list of the pending work. -/
def workTariff : Tariff ι σ where
  cmd := Cmd.work cfg K
  msg := Message.work cfg K
  cmd_congr {pool pool' d} h := by
    cases d with
    | post t m => exact congrArg (4 + ·) (Message.work_congr cfg K (h m rfl).1 (h m rfl).2)
    | userCode k => cases k <;> rfl
    | _ => rfl
  msg_congr hheader hdst := Message.work_congr cfg K hheader hdst

end Prices

/-- Whether a message is a subscription. -/
def Message.subscribes (msg : Message ι σ) : ℕ := if msg.type = some .subscribe then 1 else 0

/-- Whether a command is going to subscribe a segment. -/
def Cmd.subscribes (pool : MsgId → Message ι σ) : Cmd ι σ → ℕ
  | .send a => if a.type = .subscribe then 1 else 0
  | .post _ m => (pool m).subscribes
  | .handleSubscribe _ | .busSubscribe _ _ => 1
  | _ => 0

theorem Message.subscribes_congr {x y : Message ι σ} (hheader : x.header = y.header) :
    x.subscribes = y.subscribes := by
  rw [Message.subscribes, Message.subscribes, Message.type_eq hheader]

/-- The price list that counts the subscriptions under way. -/
def subscribeTariff : Tariff ι σ where
  cmd := Cmd.subscribes
  msg := Message.subscribes
  cmd_congr {pool pool' d} h := by
    cases d with
    | post t m => exact Message.subscribes_congr (h m rfl).1
    | _ => rfl
  msg_congr hheader _ := Message.subscribes_congr hheader

theorem Message.subscribes_of_type {msg : Message ι σ} {type : MessageType}
    (h : msg.type = some type) : msg.subscribes = if type = .subscribe then 1 else 0 := by
  rw [Message.subscribes, h]
  exact if_congr (Option.some_inj) rfl rfl

/-! ### Steps -/

/-- A step of the system's own: user code (and `LOGGER`) does not call a function or allocate, and no
wait of a task is interrupted. -/
def isInternal : Cmd ι σ → Choice ι σ → Bool
  | .userCode _, .finish _ => true
  | .userCode _, _ => false
  | .templateProc, .fail => false
  | _, _ => true

/-- The steps that a step of the fused system stands for: the end of a match is two. -/
def ownSteps : Cmd ι σ → Choice ι σ → ℕ
  | .complete _ _, _ => 2
  | c, a => (isInternal c a).toNat

/-- User code calls a function. -/
def isApiCall : Cmd ι σ → Choice ι σ → Bool
  | .userCode .log, .api _ => false
  | .userCode _, .api _ => true
  | _, _ => false

/-- `LOGGER` calls the log service, on behalf of the bus. -/
def isLogCall : Cmd ι σ → Choice ι σ → Bool
  | .userCode .log, .api _ => true
  | _, _ => false

/-- User code calls `mblue_subscribe`. -/
def isSubscription : Cmd ι σ → Choice ι σ → Bool
  | .userCode _, .api (.mblueSubscribe _ _) => true
  | _, _ => false

section Condition

variable [DecidableEq ι] [DecidableEq σ] {cfg : Config ι σ} {i : ι} {c : Cmd ι σ}
  {a : Choice ι σ} {sh : Shared ι σ}

/-- The bus is not subscribed, and finds no request under its own number. -/
def confines (cfg : Config ι σ) (c : Cmd ι σ) (sh : Shared ι σ) : Bool :=
  match c with
  | .busSubscribe ms _ => ms != cfg.bus
  | .busCall m => (sh.pool m).major.all fun major ↦ cfg.node major != some cfg.bus
  | _ => true

/-- No reference counter wraps around, and nothing comes back to the bus that it has passed on. -/
def Confined (cfg : Config ι σ) (i : ι) (c : Cmd ι σ) (a : Choice ι σ) (sh : Shared ι σ) : Prop :=
  NoWrap i c a sh ∧ confines cfg c sh = true

instance (cfg : Config ι σ) (i : ι) (c : Cmd ι σ) (a : Choice ι σ) (sh : Shared ι σ) :
    Decidable (Confined cfg i c a sh) :=
  inferInstanceAs (Decidable (_ ∧ _))

theorem Confined.ne_bus {ms : σ} {major : Major}
    (h : Confined cfg i (.busSubscribe ms major) a sh) : ms ≠ cfg.bus :=
  bne_iff_ne.1 h.2

theorem Confined.node_ne {m : MsgId} {major : Major} (h : Confined cfg i (.busCall m) a sh)
    (hmajor : (sh.pool m).major = some major) : cfg.node major ≠ some cfg.bus := by
  have hall := h.2
  rw [confines, hmajor, Option.all_some] at hall
  exact bne_iff_ne.1 hall

end Condition

section Steps

variable [Fintype ι] [DecidableEq ι] [DecidableEq σ] {cfg : Config ι σ} {K : ℕ} {s : State ι σ}
  {i : ι} {c : Cmd ι σ} {a : Choice ι σ} {rest cs : List (Cmd ι σ)} {sh sh' : Shared ι σ}

/-- The tokens of all tasks' `msg_sem`. -/
def tokens (sh : Shared ι σ) : ℕ := ∑ t, sh.msgSem t

/-- What is left to do: each token lets a task execute `remove`. -/
def work (cfg : Config ι σ) (K : ℕ) (s : State ι σ) : ℕ :=
  (workTariff cfg K).total s + 2 * tokens s.shared

/-- The subscriptions under way. -/
def subscribing (s : State ι σ) : ℕ := subscribeTariff.total s

theorem tokens_eq (h : sh'.msgSem = sh.msgSem) : tokens sh' = tokens sh := by
  rw [tokens, tokens, h]

/-- The price of a message that has just been made. -/
theorem work_initMessage (cfg : Config ι σ) (K : ℕ) (b : SendArgs ι σ) :
    (initMessage cfg b).work cfg K =
      if b.dst.getD cfg.bus = cfg.bus then b.type.busWork K else b.type.segmentWork := by
  rw [Message.work, type_initMessage]
  rfl

theorem work_ipcReturn (cfg : Config ι σ) (K : ℕ) (i : ι) (major : Major) (seq : Uint16)
    (data : Word) : (initMessage cfg (ipcReturnArgs cfg i major seq data)).work cfg K = 6 := by
  rw [work_initMessage]
  exact if_pos rfl

theorem MessageType.busWork_le (K : ℕ) (t : MessageType) : t.busWork K ≤ 22 + 9 * K := by
  cases t <;> simp [busWork] <;> omega

theorem MessageType.segmentWork_le (t : MessageType) : t.segmentWork ≤ 22 := by
  cases t <;> simp [segmentWork]

theorem work_initMessage_le (cfg : Config ι σ) (K : ℕ) (b : SendArgs ι σ) :
    (initMessage cfg b).work cfg K ≤ 22 + 9 * K := by
  rw [work_initMessage]
  split
  · exact b.type.busWork_le K
  · exact b.type.segmentWork_le.trans (Nat.le_add_right _ _)

/-- **What a call of a function expands to**: it sends one message, and a remote call then
returns. -/
theorem callApi_cmds (cfg : Config ι σ) (i : ι) (sh : Shared ι σ) (f : Api ι σ) :
    ∃ b tail, (callApi cfg i sh f).2 = .send b :: tail ∧
      (tail = [] ∨ ∃ x, tail = [.remoteReturn x]) ∧
      (b.type = .subscribe ↔ ∃ ms major, f = .mblueSubscribe ms major) := by
  cases f with
  | mblueSubscribe ms major => exact ⟨_, [], rfl, .inl rfl, iff_of_true rfl ⟨ms, major, rfl⟩⟩
  | mblueRemoteCall major minor input =>
    refine ⟨_, _, rfl, .inr ⟨sh.ncells, rfl⟩, iff_of_false MessageType.noConfusion ?_⟩
    rintro ⟨ms, major, h⟩
    cases h
  | _ =>
    refine ⟨_, [], rfl, .inl rfl, iff_of_false MessageType.noConfusion ?_⟩
    rintro ⟨ms, major, h⟩
    cases h

/-- A call of a function leads to at most this many steps. -/
theorem work_callApi_le (cfg : Config ι σ) (K : ℕ) (i : ι) (sh : Shared ι σ)
    (pool : MsgId → Message ι σ) (f : Api ι σ) :
    ((callApi cfg i sh f).2.map (Cmd.work cfg K pool)).sum ≤ 30 + 9 * K := by
  obtain ⟨b, tail, hcmds, htail, -⟩ := callApi_cmds cfg i sh f
  have hle := work_initMessage_le cfg K b
  rw [hcmds]
  rcases htail with rfl | ⟨x, rfl⟩
  · simp only [List.map_cons, List.map_nil, List.sum_cons, List.sum_nil, Cmd.work]
    omega
  · simp only [List.map_cons, List.map_nil, List.sum_cons, List.sum_nil, Cmd.work]
    omega

/-- `LOGGER` makes an asynchronous call. -/
theorem work_callApi_log {cfg : Config ι σ} {K : ℕ} {i : ι} {f : Api ι σ}
    (hmay : mayCall (.log : UserCode ι σ) f = true) (pool : MsgId → Message ι σ) :
    ((callApi cfg i sh f).2.map (Cmd.work cfg K pool)).sum = 29 := by
  cases f with
  | mblueRemoteCallAsync major minor input =>
    simp only [callApi, drawnArgs, List.map_singleton, List.sum_singleton, Cmd.work,
      work_initMessage, Option.getD_none, if_true, MessageType.busWork]
  | _ => cases hmay

/-- The handler of a queued message costs what the message did. -/
theorem work_getHandler {ms : σ} {m : MsgId} {type : MessageType} {handler : Cmd ι σ}
    (hdst : (sh.pool m).dst = some ms) (htype : (sh.pool m).type = some type)
    (hh : getHandler cfg ms m type = some handler) (pool : MsgId → Message ι σ) :
    handler.work cfg K pool = (sh.pool m).work cfg K := by
  rw [Message.work, hdst, htype]
  cases handles_of_getHandler hh with
  | subscribe hbus | busSignal hbus | busCallReturn hbus => exact (if_pos hbus).symm
  | busCall hbus hcall =>
    refine Eq.trans ?_ (if_pos hbus).symm
    cases type <;> first | rfl | cases hcall
  | signal hbus => exact (if_neg hbus).symm
  | call hbus hcall =>
    refine Eq.trans ?_ (if_neg hbus).symm
    cases type <;> first | rfl | cases hcall

/-- A request that the bus passes on is handled by its service. -/
theorem work_forward {m : MsgId} {ms : σ} (hcall : (sh.pool m).isCall = true) (hms : ms ≠ cfg.bus) :
    ((sh.forward m ms).pool m).work cfg K = 17 := by
  rw [pool_forward, Function.update_self, Message.work]
  have htype : Message.type { sh.pool m with
    ref := getMblueMessage (sh.pool m).ref, dst := some ms } = (sh.pool m).type := rfl
  rw [htype]
  rw [Message.isCall] at hcall
  cases hsome : (sh.pool m).type with
  | none => rw [hsome] at hcall; cases hcall
  | some type =>
    rw [hsome, Option.any_some] at hcall
    refine (if_neg hms).trans ?_
    cases type <;> first | rfl | cases hcall

/-- **What a step costs**: it is paid for by the command it executes, and a call of a function by
the allowance for calls. -/
theorem Effect.work_le (h : Good cfg s) (hc : s.threads i = c :: rest)
    (he : Effect cfg i c a s.shared sh' cs)
    (hlists : ∀ major, (s.shared.publishList major).length ≤ K)
    (hloops : ∀ m subs, c = .busSignalLoop m subs → cfg.bus ∉ subs)
    (hconfined : Confined cfg i c a s.shared) :
    (cs.map (Cmd.work cfg K sh'.pool)).sum + (workTariff cfg K).queues sh' + 2 * tokens sh' +
        ownSteps c a ≤
      Cmd.work cfg K s.shared.pool c + (workTariff cfg K).queues s.shared + 2 * tokens s.shared +
        (30 + 9 * K) * (isApiCall c a).toNat + 29 * (isLogCall c a).toNat := by
  have hmove := move_of_effect he
  have hknows := h.knows i c (Good.mem_head hc)
  have hqueues := (workTariff cfg K).queues_eq h hc hmove
  have htokens (hloop : c ≠ .templateProc) (hpost : ∀ t, c ≠ .semPost t) :
      tokens sh' = tokens s.shared := tokens_eq (he.msgSem_eq hloop hpost)
  cases he with
  | pendFailed => exact le_rfl
  | pendTaken hsem =>
    have hsum := sum_update s.shared.msgSem id i (s.shared.msgSem i - 1)
    have hle := le_sum s.shared.msgSem id i
    have hq : (workTariff cfg K).queues { s.shared with
        msgSem := Function.update s.shared.msgSem i (s.shared.msgSem i - 1) } =
          (workTariff cfg K).queues s.shared := rfl
    rw [hq, tokens, tokens]
    simp only [id, List.map_cons, List.map_nil, List.sum_cons, List.sum_nil, Cmd.work, ownSteps,
      isInternal, isApiCall, isLogCall, Bool.toNat_true, Bool.toNat_false] at hsum hle ⊢
    omega
  | removed hmq hdst htype hhandler =>
    have hq := (workTariff cfg K).queues_removed hmq
    have ht := htokens (by rintro ⟨⟩) (by rintro _ ⟨⟩)
    have hcost := work_getHandler (K := K) hdst htype hhandler s.shared.pool
    have hprice : (workTariff cfg K).msg = Message.work cfg K := rfl
    have hremove : Cmd.work cfg K s.shared.pool .remove = 1 := rfl
    rw [hprice] at hq
    simp only [List.map_cons, List.map_nil, List.sum_cons, List.sum_nil, ownSteps, isInternal,
      isApiCall, isLogCall, Bool.toNat_true, Bool.toNat_false, hcost, hremove]
    omega
  | userFailed =>
    simp only [ownSteps, isInternal, List.map_singleton, List.sum_singleton, Bool.toNat_false]
    omega
  | userMalloc =>
    rename_i k p block _ _
    have hq := hqueues (by rintro ⟨⟩) (by rintro _ _ ⟨⟩)
    have ht := htokens (by rintro ⟨⟩) (by rintro _ ⟨⟩)
    have hpool : (s.shared.mallocPayload p block).pool = s.shared.pool := rfl
    simp only [List.map_cons, List.map_nil, List.sum_cons, List.sum_nil, ownSteps, isInternal,
      isApiCall, isLogCall, Bool.toNat_false, hpool]
    omega
  | userCall hmay =>
    rename_i k f
    have hq := hqueues (by rintro ⟨⟩) (by rintro _ _ ⟨⟩)
    have ht := htokens (by rintro ⟨⟩) (by rintro _ ⟨⟩)
    have hpool := (sameMessages_callApi cfg i s.shared f).pool_eq
    have hcall : ((callApi cfg i s.shared f).2.map (Cmd.work cfg K s.shared.pool)).sum ≤
        (30 + 9 * K) * (isApiCall (.userCode k) (.api f)).toNat +
          29 * (isLogCall (.userCode k) (.api f)).toNat := by
      cases k with
      | log =>
        rw [work_callApi_log hmay]
        exact Nat.le_add_left _ _
      | _ =>
        refine (work_callApi_le cfg K i s.shared s.shared.pool f).trans ?_
        simp only [isApiCall, Bool.toNat_true, Nat.mul_one]
        exact Nat.le_add_right _ _
    simp only [List.map_append, List.map_cons, List.map_nil, List.sum_append, List.sum_cons,
      List.sum_nil, hpool, ownSteps, isInternal, Bool.toNat_false]
    omega
  | sendDone halloc hctx =>
    have hq := hqueues (by rintro ⟨⟩) (by rintro _ _ ⟨⟩)
    have ht := htokens (by rintro ⟨⟩) (by rintro _ ⟨⟩)
    obtain ⟨free, -, rfl⟩ := alloc_eq_some halloc
    simp only [List.map_cons, List.map_nil, List.sum_cons, List.sum_nil, Cmd.work, ownSteps,
      isInternal, isApiCall, isLogCall, Bool.toNat_true, Bool.toNat_false, Function.update_self]
    omega
  | postFull hfull =>
    simp only [List.map_nil, List.sum_nil, Cmd.work, ownSteps, isInternal, isApiCall, isLogCall,
      Bool.toNat_true, Bool.toNat_false]
    omega
  | postDone hroom =>
    rename_i t m
    have hq := (workTariff cfg K).queues_posted s.shared t m
    have ht := htokens (by rintro ⟨⟩) (by rintro _ ⟨⟩)
    have hprice : (workTariff cfg K).msg = Message.work cfg K := rfl
    rw [hprice] at hq
    simp only [List.map_cons, List.map_nil, List.sum_cons, List.sum_nil, Cmd.work, ownSteps,
      isInternal, isApiCall, isLogCall, Bool.toNat_true, Bool.toNat_false]
    omega
  | semPosted =>
    rename_i t
    have hsum := sum_update s.shared.msgSem id t (s.shared.msgSem t + 1)
    have hq : (workTariff cfg K).queues { s.shared with
        msgSem := Function.update s.shared.msgSem t (s.shared.msgSem t + 1) } =
          (workTariff cfg K).queues s.shared := rfl
    rw [hq, tokens, tokens]
    simp only [id, List.map_nil, List.sum_nil, Cmd.work, ownSteps, isInternal, isApiCall, isLogCall,
      Bool.toNat_true, Bool.toNat_false] at hsum ⊢
    omega
  | signalRelayed hmajor hsubs =>
    rename_i m major
    have hq := hqueues (by rintro ⟨⟩) (by rintro _ _ ⟨⟩)
    have ht := htokens (by rintro ⟨⟩) (by rintro _ ⟨⟩)
    have hlength := hlists major
    simp only [List.map_cons, List.map_nil, List.sum_cons, List.sum_nil, Cmd.work, ownSteps,
      isInternal, isApiCall, isLogCall, Bool.toNat_true, Bool.toNat_false]
    omega
  | loopReplicated hctx halloc =>
    rename_i m ms subs t r sh₁
    have hq := hqueues (by rintro ⟨⟩) (by rintro _ _ ⟨⟩)
    have ht := htokens (by rintro ⟨⟩) (by rintro _ ⟨⟩)
    obtain ⟨free, -, rfl⟩ := alloc_eq_some halloc
    have hms : ms ≠ cfg.bus := fun heq ↦ hloops m _ rfl (heq ▸ List.mem_cons_self)
    have hreplica : (replicate (s.shared.pool m) ms).work cfg K = 4 := by
      have htype : (replicate (s.shared.pool m) ms).type = some .signal := hknows.2.1
      rw [Message.work, htype]
      exact if_neg hms
    rw [hq, ht]
    simp only [List.map_cons, List.map_nil, List.sum_cons, List.sum_nil, Cmd.work, ownSteps,
      isInternal, isApiCall, isLogCall, Bool.toNat_true, Bool.toNat_false, Shared.log,
      Function.update_self, hreplica, List.length_cons]
    omega
  | callNoEntry hmajor hnode hctx hentry =>
    rename_i m major ms t
    have hq := hqueues (by rintro ⟨⟩) (by rintro _ _ ⟨⟩)
    have ht := htokens (by rintro ⟨⟩) (by rintro _ ⟨⟩)
    have hms : ms ≠ cfg.bus := fun heq ↦ hconfined.node_ne hmajor (heq ▸ hnode)
    have hcost := work_forward (K := K) hknows.2.1 hms
    simp only [List.map_cons, List.map_nil, List.sum_cons, List.sum_nil, Cmd.work, ownSteps,
      isInternal, isApiCall, isLogCall, Bool.toNat_true, Bool.toNat_false, hcost]
    omega
  | callLinked hmajor hnode hctx hentry =>
    rename_i m major ms t e
    have hq := hqueues (by rintro ⟨⟩) (by rintro _ _ ⟨⟩)
    have ht := htokens (by rintro ⟨⟩) (by rintro _ ⟨⟩)
    have hms : ms ≠ cfg.bus := fun heq ↦ hconfined.node_ne hmajor (heq ▸ hnode)
    have hcall : (((s.shared.link major e).log
        (.linked major e (s.shared.pool m).seq)).pool m).isCall = true := hknows.2.1
    have hcost := work_forward (K := K) hcall hms
    simp only [List.map_cons, List.map_nil, List.sum_cons, List.sum_nil, Cmd.work, ownSteps,
      isInternal, isApiCall, isLogCall, Bool.toNat_true, Bool.toNat_false, hcost]
    omega
  | serviceFinished | requestRefused =>
    have hq := hqueues (by rintro ⟨⟩) (by rintro _ _ ⟨⟩)
    have ht := htokens (by rintro ⟨⟩) (by rintro _ ⟨⟩)
    simp only [List.map_cons, List.map_nil, List.sum_cons, List.sum_nil, Cmd.work, ownSteps,
      isInternal, isApiCall, isLogCall, Bool.toNat_true, Bool.toNat_false, work_ipcReturn]
    omega
  | _ =>
    have hq := hqueues (by rintro ⟨⟩) (by rintro _ _ ⟨⟩)
    have ht := htokens (by rintro ⟨⟩) (by rintro _ ⟨⟩)
    simp only [List.map_cons, List.map_nil, List.sum_cons, List.sum_nil, Cmd.work, ownSteps,
      isInternal, isApiCall, isLogCall, Bool.toNat_true, Bool.toNat_false, List.length_cons]
    omega

/-- The handler of a queued message subscribes if the message does. -/
theorem subscribes_getHandler {ms : σ} {m : MsgId} {type : MessageType} {handler : Cmd ι σ}
    (htype : (sh.pool m).type = some type) (hh : getHandler cfg ms m type = some handler)
    (pool : MsgId → Message ι σ) : handler.subscribes pool = (sh.pool m).subscribes := by
  rw [Message.subscribes_of_type htype]
  cases handles_of_getHandler hh with
  | busCall hbus hcall | call hbus hcall => cases type <;> first | rfl | cases hcall
  | _ => rfl

theorem subscribes_of_isCall {msg : Message ι σ} (h : msg.isCall = true) : msg.subscribes = 0 := by
  rw [Message.isCall] at h
  cases htype : msg.type with
  | none => rw [htype] at h; cases h
  | some type =>
    rw [htype, Option.any_some] at h
    rw [Message.subscribes_of_type htype]
    cases type <;> first | rfl | cases h

theorem subscribes_forward (sh : Shared ι σ) (m : MsgId) (ms : σ) :
    ((sh.forward m ms).pool m).subscribes = (sh.pool m).subscribes := by
  rw [pool_forward, Function.update_self]
  rfl

theorem subscribes_initMessage (cfg : Config ι σ) (b : SendArgs ι σ) :
    (initMessage cfg b).subscribes = if b.type = .subscribe then 1 else 0 :=
  Message.subscribes_of_type (type_initMessage cfg b)

theorem subscribes_callApi (cfg : Config ι σ) (i : ι) (sh : Shared ι σ) (k : UserCode ι σ)
    (f : Api ι σ) (pool : MsgId → Message ι σ) :
    ((callApi cfg i sh f).2.map (Cmd.subscribes pool)).sum =
      (isSubscription (.userCode k : Cmd ι σ) (.api f)).toNat := by
  obtain ⟨b, tail, hcmds, htail, hsub⟩ := callApi_cmds cfg i sh f
  have htail' : (tail.map (Cmd.subscribes pool)).sum = 0 := by
    rcases htail with rfl | ⟨x, rfl⟩ <;> rfl
  rw [hcmds, List.map_cons, List.sum_cons, htail', Nat.add_zero, Cmd.subscribes]
  cases f with
  | mblueSubscribe ms major => exact if_pos (hsub.2 ⟨ms, major, rfl⟩)
  | _ =>
    refine if_neg fun htype ↦ ?_
    obtain ⟨ms, major, h⟩ := hsub.1 htype
    cases h

/-- **What a step does to subscriptions**: those under way become entries of a list, and only
`mblue_subscribe` starts one. -/
theorem Effect.subscribes_le (h : Good cfg s) (hc : s.threads i = c :: rest)
    (he : Effect cfg i c a s.shared sh' cs) (major : Major) :
    (sh'.publishList major).length + (cs.map (Cmd.subscribes sh'.pool)).sum +
        subscribeTariff.queues sh' ≤
      (s.shared.publishList major).length + Cmd.subscribes s.shared.pool c +
        subscribeTariff.queues s.shared + (isSubscription c a).toNat := by
  have hmove := move_of_effect he
  have hknows := h.knows i c (Good.mem_head hc)
  have hqueues := subscribeTariff.queues_eq h hc hmove
  have hlist := he.publishList_eq
  cases he with
  | removed hmq hdst htype hhandler =>
    have hq := subscribeTariff.queues_removed hmq
    have hcost := subscribes_getHandler htype hhandler s.shared.pool
    have hprice : (subscribeTariff : Tariff ι σ).msg = Message.subscribes := rfl
    rw [hprice] at hq
    simp only [List.map_cons, List.map_nil, List.sum_cons, List.sum_nil, hcost]
    omega
  | userMalloc =>
    rename_i k p block _ _
    have hq := hqueues (by rintro ⟨⟩) (by rintro _ _ ⟨⟩)
    have hpool : (s.shared.mallocPayload p block).pool = s.shared.pool := rfl
    have hl := hlist (by rintro _ _ ⟨⟩)
    simp only [List.map_cons, List.map_nil, List.sum_cons, List.sum_nil, hpool, hl]
    omega
  | userCall hmay =>
    rename_i k f
    have hq := hqueues (by rintro ⟨⟩) (by rintro _ _ ⟨⟩)
    have hl := hlist (by rintro _ _ ⟨⟩)
    have hpool := (sameMessages_callApi cfg i s.shared f).pool_eq
    have hcall := subscribes_callApi cfg i s.shared k f s.shared.pool
    simp only [List.map_append, List.map_cons, List.map_nil, List.sum_append, List.sum_cons,
      List.sum_nil, hpool, hl]
    omega
  | sendDone halloc hctx =>
    have hq := hqueues (by rintro ⟨⟩) (by rintro _ _ ⟨⟩)
    obtain ⟨free, -, rfl⟩ := alloc_eq_some halloc
    simp only [List.map_cons, List.map_nil, List.sum_cons, List.sum_nil, Cmd.subscribes,
      Function.update_self, subscribes_initMessage]
    omega
  | postFull hfull =>
    simp only [List.map_nil, List.sum_nil]
    omega
  | postDone hroom =>
    rename_i t m
    have hq := subscribeTariff.queues_posted s.shared t m
    have hprice : (subscribeTariff : Tariff ι σ).msg = Message.subscribes := rfl
    rw [hprice] at hq
    simp only [List.map_cons, List.map_nil, List.sum_cons, List.sum_nil, Cmd.subscribes]
    omega
  | subscribed hmem =>
    rename_i ms major'
    have hq := hqueues (by rintro ⟨⟩) (by rintro _ _ ⟨⟩)
    rw [hq]
    have hlength : (((s.shared.subscribe ms major').log (.subscribed ms major')).publishList
        major).length ≤ (s.shared.publishList major).length + 1 := by
      show (Function.update s.shared.publishList major' _ major).length ≤ _
      by_cases heq : major = major'
      · rw [heq, Function.update_self, List.length_append]
        exact le_rfl
      · rw [Function.update_of_ne heq]
        exact Nat.le_succ _
    simp only [List.map_nil, List.sum_nil, Cmd.subscribes]
    omega
  | loopReplicated hctx halloc =>
    rename_i m ms subs t r sh₁
    have hq := hqueues (by rintro ⟨⟩) (by rintro _ _ ⟨⟩)
    obtain ⟨free, -, rfl⟩ := alloc_eq_some halloc
    have hreplica : (replicate (s.shared.pool m) ms).subscribes = 0 :=
      Message.subscribes_of_type hknows.2.1
    rw [hq]
    simp only [List.map_cons, List.map_nil, List.sum_cons, List.sum_nil, Cmd.subscribes, Shared.log,
      Function.update_self, hreplica]
    omega
  | callNoEntry hmajor hnode hctx hentry =>
    rename_i m major' ms t
    have hq := hqueues (by rintro ⟨⟩) (by rintro _ _ ⟨⟩)
    have hl := hlist (by rintro _ _ ⟨⟩)
    have hzero := subscribes_of_isCall hknows.2.1
    simp only [List.map_cons, List.map_nil, List.sum_cons, List.sum_nil, Cmd.subscribes,
      subscribes_forward, hzero, hl]
    omega
  | callLinked hmajor hnode hctx hentry =>
    rename_i m major' ms t e
    have hq := hqueues (by rintro ⟨⟩) (by rintro _ _ ⟨⟩)
    have hl := hlist (by rintro _ _ ⟨⟩)
    have hzero : (((s.shared.link major' e).log
        (.linked major' e (s.shared.pool m).seq)).pool m).subscribes = 0 :=
      subscribes_of_isCall hknows.2.1
    simp only [List.map_cons, List.map_nil, List.sum_cons, List.sum_nil, Cmd.subscribes,
      subscribes_forward, hzero, hl]
    omega
  | _ =>
    have hq := hqueues (by rintro ⟨⟩) (by rintro _ _ ⟨⟩)
    have hl := hlist (by rintro _ _ ⟨⟩)
    simp only [List.map_cons, List.map_nil, List.sum_cons, List.sum_nil, Cmd.subscribes, hl,
      ipcReturnArgs, reduceCtorEq, if_false]
    omega

end Steps

end Mblue
