import Mblue.System.Drawn
import Mblue.System.Reduction

/-!
# A payload block that was handed over

User code hands a payload block over to one message, and nothing else may read or free it. `Handed`
says so of the states that follow: nothing with another draw holds the block (`Handed.sole_step`),
and it is where it was until it is freed (`Handed.live_step`). How often it is freed is another
matter, which depends on what becomes of the message: it is accounted for with a tally of those who
are going to free it (`Handed.account_step`). `Opens` is the state before the message is sent.
-/

set_option linter.unusedSectionVars false

namespace Mblue

variable {ι σ : Type}

/-! ### Who holds a block -/

/-- The message whose payload a command may still read or free. -/
def Cmd.frees? : Cmd ι σ → Option MsgId
  | .post _ m | .busCall m | .busSignal m | .busSignalLoop m _ | .signalHandler _ m
  | .ipcHandler _ m | .finish m | .userCode (.signal _ m) | .userCode (.service _ m _ _) => some m
  | _ => none

theorem Cmd.msg_of_frees {c : Cmd ι σ} {m : MsgId} (h : c.frees? = some m) : c.msg? = some m := by
  cases c with
  | userCode k => cases k <;> exact h
  | _ => first | exact h | cases h

/-- A message keeps its draw with its header. -/
theorem draw_congr {sh sh' : Shared ι σ} {m : MsgId} (h : (sh.pool m).SameBut (sh'.pool m)) :
    some (sh'.pool m).draw = some (sh.pool m).draw := congrArg some (Message.draw_eq h.1)

/-- Something pending may still read or free the block `p`: it does so for this draw. -/
inductive Holds (s : State ι σ) (p : Word) : ℕ → Prop
  | sending {i a} (hc : .send a ∈ s.threads i) (htype : a.type ≠ .callReturn) (hp : a.input = p) :
      Holds s p a.draw
  | carried {i c m} (hc : c ∈ s.threads i) (hm : c.frees? = some m)
      (htype : (s.shared.pool m).type ≠ some .callReturn)
      (hp : (s.shared.pool m).smartPayload = p) : Holds s p (s.shared.pool m).draw
  | queued {t m} (hm : m ∈ s.shared.mq t) (htype : (s.shared.pool m).type ≠ some .callReturn)
      (hp : (s.shared.pool m).smartPayload = p) : Holds s p (s.shared.pool m).draw

/-- What holds a block in the fused state holds it. -/
theorem Holds.of_fuse [Fintype ι] [DecidableEq ι] [DecidableEq σ] {cfg : Config ι σ}
    {s : State ι σ} {p : Word} {d : ℕ} (h : Holds (fuse cfg s) p d) : Holds s p d := by
  have hpool := fuse_pool cfg s
  cases h with
  | sending hc htype hp => exact .sending (mem_of_mem_fuse hc) htype hp
  | carried hc hm htype hp =>
    rw [hpool] at htype hp ⊢
    exact .carried (mem_of_mem_fuse hc) hm htype hp
  | queued hm htype hp =>
    rw [hpool] at htype hp ⊢
    exact .queued (fuse_mq cfg s ▸ hm) htype hp

/-! ### The invariant -/

section Invariant

variable [Fintype ι] [DecidableEq ι] [DecidableEq σ]

/-- A block was handed over to the message with these arguments. -/
structure Handed (cfg : Config ι σ) (A : SendArgs ι σ) (block : List UInt8) (s : State ι σ) :
    Prop extends Drawn cfg A s where
  isBlock : pbPayload A.input = true
  sole : .freed A.draw A.input ∉ heapEvents s.shared → ∀ d, Holds s A.input d → d = A.draw
  live : .freed A.draw A.input ∉ heapEvents s.shared → s.shared.heap A.input = some block

variable {cfg : Config ι σ} {A : SendArgs ι σ} {block : List UInt8} {s : State ι σ} {i : ι}
  {c : Cmd ι σ} {a : Choice ι σ} {rest cs : List (Cmd ι σ)} {sh' : Shared ι σ} {m : MsgId}

/-- **Where a holder of a payload comes from**: the executed command held it, sent it, or took it
from the queue. -/
theorem Good.frees_origin (h : Good cfg s) (hc : s.threads i = c :: rest)
    (he : Effect cfg i c a s.shared sh' cs) (hm : m ∈ cs.filterMap Cmd.frees?) :
    (∃ n, c.frees? = some n ∧ (sh'.pool m).header = (s.shared.pool n).header) ∨
    (∃ b, c = .send b ∧ sh'.pool m = initMessage cfg b) ∨
    (c = .remove ∧ m ∈ s.shared.mq i ∧ sh'.pool = s.shared.pool) := by
  have hkeep : ∀ n, c.frees? = some n → (sh'.pool n).header = (s.shared.pool n).header :=
    fun n hn ↦ (move_of_effect he).header_eq (h.not_free (Good.mem_head hc) (Cmd.msg_of_frees hn))
  cases he with
  | removed hmq hdst htype hhandler =>
    rename_i n tail ms type handler
    have hmem : m ∈ carried [handler] := by
      obtain ⟨x, hx, hxm⟩ := List.mem_filterMap.1 hm
      exact List.mem_filterMap.2 ⟨x, hx, Cmd.msg_of_frees hxm⟩
    rw [carried_getHandler hhandler, List.mem_singleton] at hmem
    exact .inr (.inr ⟨rfl, hmem ▸ hmq ▸ List.mem_cons_self, rfl⟩)
  | userCall hmay =>
    rename_i k f
    have hpool := (sameMessages_callApi cfg i s.shared f).pool_eq
    have hnone : (callApi cfg i s.shared f).2.filterMap Cmd.frees? = [] := by cases f <;> rfl
    rw [List.filterMap_append, hnone, List.nil_append] at hm
    obtain ⟨x, hx, hxm⟩ := List.mem_filterMap.1 hm
    rw [List.mem_singleton.1 hx] at hxm
    exact .inl ⟨m, hxm, by rw [hpool]⟩
  | userMalloc | userFailed =>
    obtain ⟨x, hx, hxm⟩ := List.mem_filterMap.1 hm
    rw [List.mem_singleton.1 hx] at hxm
    exact .inl ⟨m, hxm, rfl⟩
  | sendDone halloc hctx =>
    rename_i b n t
    obtain ⟨free, -, rfl⟩ := alloc_eq_some halloc
    obtain rfl := List.mem_singleton.1 hm
    exact .inr (.inl ⟨b, rfl, Function.update_self _ _ _⟩)
  | loopReplicated hctx halloc =>
    rename_i n ms subs t r sh₁
    obtain ⟨free, hfree, rfl⟩ := alloc_eq_some halloc
    have hne : n ≠ r := fun heq ↦ h.not_free (Good.mem_head hc) rfl (hfree ▸ heq ▸ List.mem_cons_self)
    refine .inl ⟨n, rfl, ?_⟩
    show (Function.update s.shared.pool r (replicate (s.shared.pool n) ms) m).header = _
    have hboth : m = r ∨ m = n := by
      have hmem : m ∈ [r, n] := hm
      simpa only [List.mem_cons, List.not_mem_nil, or_false] using hmem
    rcases hboth with rfl | rfl
    · rw [Function.update_self]
      rfl
    · rw [Function.update_of_ne hne]
  | _ =>
    first
      | exact absurd hm List.not_mem_nil
      | obtain rfl := List.mem_singleton.1 hm
        exact .inl ⟨m, rfl, hkeep m rfl⟩

omit [Fintype ι] [DecidableEq ι] [DecidableEq σ] in
/-- A free is an event of the heap. -/
theorem freed_mem_iff {sh : Shared ι σ} {d : ℕ} {p : Word} :
    .freed d p ∈ heapEvents sh ↔ .freed d p ∈ sh.trace := by
  rw [heapEvents, List.mem_filter]
  exact and_iff_left rfl

omit [Fintype ι] in
/-- An event of the heap that is not the free of the block does not count. -/
theorem count_freed_of_ne {d : ℕ} {p : Word} (h : d ≠ A.draw) :
    [Event.freed (ι := ι) (σ := σ) d p].count (.freed A.draw A.input) = 0 :=
  List.count_eq_zero.2 fun hmem ↦ by
    cases List.mem_singleton.1 hmem
    exact h rfl

omit [Fintype ι] in
/-- A called function puts on the list what stands for `y` only in a message it sends. -/
theorem count_callApi {β : Type} [DecidableEq β] {sh : Shared ι σ} {f : Api ι σ}
    {g : Cmd ι σ → Option β} {y : β} (hsend : ∀ b, .send b ∈ (callApi cfg i sh f).2 →
      g (.send b) ≠ some y) (hreturn : ∀ o, g (.remoteReturn o) ≠ some y) :
    ((callApi cfg i sh f).2.filterMap g).count y = 0 := by
  refine count_tokens_of_ne fun x hx ↦ ?_
  rcases cmd_of_callApi hx with ⟨b, rfl⟩ | ⟨o, rfl⟩
  · exact hsend b hx
  · exact hreturn o

namespace Handed

/-- **Who holds the block after a step held it before**, unless user code passes the block on. -/
theorem holds_origin (h : Handed cfg A block s) (hc : s.threads i = c :: rest)
    (he : Effect cfg i c a s.shared sh' cs) {d : ℕ}
    (hd : Holds ⟨sh', Function.update s.threads i (cs ++ rest)⟩ A.input d) :
    Holds s A.input d ∨ ∃ k f, c = .userCode k ∧ a = .api f ∧ f.payload? = some A.input := by
  have hmove := move_of_effect he
  cases hd with
  | sending hb htype hp =>
    rename_i j b
    rcases mem_expand_iff.1 hb with ⟨-, hb⟩ | hb
    · rcases he.send_origin hb with ⟨k, f, hck, haf, hmem, -⟩ | ⟨-, -, hreturn⟩
      · obtain ⟨-, -, -, hreturn | hplain | hpayload⟩ := send_of_callApi hmem
        · exact absurd hreturn htype
        · rw [hp, h.isBlock] at hplain
          cases hplain
        · exact .inr ⟨k, f, hck, haf, hp ▸ hpayload⟩
      · -- an answer holds no block
        exact absurd hreturn htype
    · exact .inl (.sending (mem_of_mem_rest hc hb) htype hp)
  | carried hx hm htype hp =>
    rename_i j x m
    dsimp only at htype hp ⊢
    rcases mem_expand_iff.1 hx with ⟨-, hx⟩ | hx
    · rcases h.toGood.frees_origin hc he (List.mem_filterMap.2 ⟨x, hx, hm⟩) with
        ⟨n, hn, hheader⟩ | ⟨b, rfl, hpool⟩ | ⟨-, hmem, hpool⟩
      · rw [Message.type_eq hheader] at htype
        rw [Message.smartPayload_eq hheader] at hp
        rw [Message.draw_eq hheader]
        exact .inl (.carried (Good.mem_head hc) hn htype hp)
      · rw [hpool] at htype hp ⊢
        have hb : (initMessage cfg b).type = some b.type := getType_mkCode _ _ _
        rw [hb] at htype
        exact .inl (.sending (Good.mem_head hc) (fun heq ↦ htype (congrArg some heq)) hp)
      · rw [hpool] at htype hp ⊢
        exact .inl (.queued hmem htype hp)
    · have hold := mem_of_mem_rest hc hx
      have hheader := hmove.header_eq (h.not_free hold (Cmd.msg_of_frees hm))
      rw [Message.type_eq hheader] at htype
      rw [Message.smartPayload_eq hheader] at hp
      rw [Message.draw_eq hheader]
      exact .inl (.carried hold hm htype hp)
  | queued hm htype hp =>
    rename_i t m
    dsimp only at hm htype hp ⊢
    rcases hmove.mq_origin hm with hm | rfl
    · have hheader := hmove.header_eq (h.not_free_of_mq hm)
      rw [Message.type_eq hheader] at htype
      rw [Message.smartPayload_eq hheader] at hp
      rw [Message.draw_eq hheader]
      exact .inl (.queued hm htype hp)
    · have hheader := hmove.header_eq (h.not_free (Good.mem_head hc) rfl)
      rw [Message.type_eq hheader] at htype
      rw [Message.smartPayload_eq hheader] at hp
      rw [Message.draw_eq hheader]
      exact .inl (.carried (Good.mem_head hc) rfl htype hp)

/-- **The block has no other holder** until it is freed. -/
theorem sole_step (h : Handed cfg A block s) (hc : s.threads i = c :: rest)
    (he : Effect cfg i c a s.shared sh' cs)
    (hok : ∀ k f, c = .userCode k → a = .api f → f.payload? = some A.input →
      .freed A.draw A.input ∈ s.shared.trace)
    (hfreed : .freed A.draw A.input ∉ heapEvents sh') :
    ∀ d, Holds ⟨sh', Function.update s.threads i (cs ++ rest)⟩ A.input d → d = A.draw := by
  rw [he.heapEvents_eq, List.mem_append, not_or] at hfreed
  intro d hd
  rcases h.holds_origin hc he hd with hold | ⟨k, f, rfl, rfl, hpayload⟩
  · exact h.sole hfreed.1 d hold
  · exact absurd (freed_mem_iff.2 (hok k f rfl rfl hpayload)) hfreed.1

/-- **The block is where it was** until it is freed. -/
theorem live_step (h : Handed cfg A block s) (hc : s.threads i = c :: rest)
    (he : Effect cfg i c a s.shared sh' cs)
    (hfreed : .freed A.draw A.input ∉ heapEvents sh') : sh'.heap A.input = some block := by
  have hevents := he.heapEvents_eq
  rw [hevents, List.mem_append, not_or] at hfreed
  have hlive := h.live hfreed.1
  have hknows := h.knows i c (Good.mem_head hc)
  have hsame : ∀ {sh : Shared ι σ}, sh.heap = s.shared.heap → sh.heap A.input = some block :=
    fun heq ↦ by rw [heq]; exact hlive
  cases he with
  | userMalloc hp hfree =>
    rename_i k p bytes
    have hne : A.input ≠ p := fun heq ↦ by
      rw [heq, hfree] at hlive
      cases hlive
    show Function.update s.shared.heap p (some bytes) A.input = some block
    rw [Function.update_of_ne hne]
    exact hlive
  | userCall hmay =>
    rename_i k f
    exact hsame (heap_callApi f)
  | sendDone halloc =>
    obtain ⟨_, -, rfl⟩ := alloc_eq_some halloc
    exact hlive
  | loopReplicated hctx halloc =>
    obtain ⟨_, -, rfl⟩ := alloc_eq_some halloc
    exact hlive
  | tpendTaken hsem =>
    rename_i t o d tail
    cases o <;> exact hlive
  | subscribeReleased | released => exact hsame (heap_release s.shared _)
  | completed =>
    rename_i major e
    exact hsame (heap_release s.shared e.msg)
  | finishedPayload hp =>
    rename_i m
    have hne : A.input ≠ (s.shared.pool m).smartPayload := fun heq ↦ by
      obtain ⟨ms, -, -, htype, -⟩ := hknows
      have hreturn : (s.shared.pool m).type ≠ some .callReturn := fun hr ↦ by
        rcases htype with hsignal | hcall
        · rw [hsignal] at hr
          cases hr
        · rw [Message.isCall_of_type hr] at hcall
          cases hcall
      have hdraw := h.sole hfreed.1 _ (.carried (Good.mem_head hc) rfl hreturn heq.symm)
      refine hfreed.2 ?_
      rw [emitted, if_pos hp, hdraw, ← heq]
      exact List.mem_singleton_self _
    show Function.update s.shared.heap (s.shared.pool m).smartPayload none A.input = some block
    rw [Function.update_of_ne hne]
    exact hlive
  | _ => exact hlive

/-- The end of a handler frees the block if it is the block's, and nothing else. -/
theorem emitted_finish (h : Handed cfg A block s) (hm : m ∉ s.shared.msgList) :
    (emitted s.shared (.finish m) cs).count (.freed A.draw A.input) =
      [(s.shared.pool m).draw].count A.draw := by
  by_cases hdraw : (s.shared.pool m).draw = A.draw
  · have hpayload := (h.message hm hdraw).2.1
    rw [emitted, hpayload, if_pos h.isBlock, hdraw, List.count_singleton_self,
      List.count_singleton_self]
  · rw [count_singleton_of_ne hdraw, emitted]
    split
    · exact count_freed_of_ne hdraw
    · rfl

/-- What user code sends does not stand for the draw. -/
theorem count_userCall (h : Handed cfg A block s) {k : UserCode ι σ} {f : Api ι σ}
    (hmay : mayCall k f = true) {T : Tally ι σ ℕ}
    (hsend : ∀ sh b, T.cmd sh (.send b) = some b.draw)
    (hreturn : ∀ sh o, T.cmd sh (.remoteReturn o) = none) :
    (((callApi cfg i s.shared f).2 ++ [Cmd.userCode k]).filterMap
        (T.cmd (callApi cfg i s.shared f).1)).count A.draw =
      ([Cmd.userCode k].filterMap (T.cmd s.shared)).count A.draw := by
  have hnone : ((callApi cfg i s.shared f).2.filterMap
      (T.cmd (callApi cfg i s.shared f).1)).count A.draw = 0 := by
    refine count_callApi (fun b hb hbd ↦ ?_) fun o hod ↦ ?_
    · rw [hsend] at hbd
      exact h.new_send (.userCall hmay) (List.mem_append_left _ hb) (Option.some.inj hbd)
    · rw [hreturn] at hod
      cases hod
  have hsame : T.cmd (callApi cfg i s.shared f).1 (.userCode k) = T.cmd s.shared (.userCode k) :=
    Tally.cmd_of_pool (sameMessages_callApi cfg i s.shared f).pool_eq _
  rw [List.filterMap_append, List.count_append, hnone, Nat.zero_add, List.filterMap_cons, hsame]
  rfl

/-- **The account of the block**: a tally that stands for the queued messages and for those about to
be posted, and that a step which leaves the queues alone trades against the frees of the block,
goes on being one with them. Nothing of the block may find a full queue, and the handler of a
message stands for what the message stood for. -/
theorem account_step (h : Handed cfg A block s) (hc : s.threads i = c :: rest)
    (he : Effect cfg i c a s.shared sh' cs) {T : Tally ι σ ℕ}
    (hmsg : ∀ m, T.msg s.shared m = some (s.shared.pool m).draw)
    (hpost : ∀ t m, T.cmd s.shared (.post t m) = some (s.shared.pool m).draw)
    (hidle : T.cmd s.shared .remove = none ∧ ∀ t, T.cmd s.shared (.semPost t) = none)
    (hroom : ∀ t m, c = .post t m → (s.shared.pool m).draw = A.draw →
      (s.shared.mq t).length < cfg.capacity t)
    (hhandler : ∀ m ms type handler, c = .remove → m ∉ s.shared.msgList →
      (s.shared.pool m).type = some type → getHandler cfg ms m type = some handler →
      (T.cmd s.shared handler = some A.draw ↔ (s.shared.pool m).draw = A.draw))
    (htraded : c ≠ .remove → (∀ t m, c ≠ .post t m) → (cs.filterMap (T.cmd sh')).count A.draw +
      (emitted s.shared c cs).count (.freed A.draw A.input) =
        ([c].filterMap (T.cmd s.shared)).count A.draw)
    (hbefore : T.total s A.draw + (heapEvents s.shared).count (.freed A.draw A.input) = 1) :
    T.total ⟨sh', Function.update s.threads i (cs ++ rest)⟩ A.draw +
      (heapEvents sh').count (.freed A.draw A.input) = 1 := by
  have hmove := move_of_effect he
  have hevents : (heapEvents sh').count (.freed A.draw A.input) =
      (heapEvents s.shared).count (.freed A.draw A.input) +
        (emitted s.shared c cs).count (.freed A.draw A.input) := by
    rw [he.heapEvents_eq, List.count_append]
  -- messages in the queues count as well, so the commands that move them come first
  by_cases hqueue : c = .remove ∨ ∃ t m, c = .post t m
  · cases he with
    | removed hmq hdst htype hget =>
      rename_i n tail ms type handler
      have htotal := Tally.total_removed (T := T) (b := A.draw) hc hmq handler
      have hfree : n ∉ s.shared.msgList := h.not_free_of_mq (hmq ▸ List.mem_cons_self)
      have hsame : ([handler].filterMap (T.cmd s.shared)).count A.draw =
          ([n].filterMap (T.msg s.shared)).count A.draw := by
        refine count_token_congr ((hhandler n ms type handler rfl hfree htype hget).trans ?_)
        rw [hmsg, Option.some.injEq]
      have hremove : ([Cmd.remove].filterMap (T.cmd s.shared)).count A.draw = 0 :=
        count_token_of_ne (by rw [hidle.1]; exact Option.some_ne_none _ ∘ Eq.symm)
      have hnothing : (emitted s.shared .remove [handler]).count
          (.freed A.draw A.input) = 0 := rfl
      dsimp only at htotal
      omega
    | postFull hfull =>
      rename_i t n
      have htotal := Tally.total_step (T := T) h.toGood hc hmove rfl A.draw
      have hne : (s.shared.pool n).draw ≠ A.draw := fun heq ↦
        absurd (hroom t n rfl heq) (Nat.not_lt_of_le hfull)
      have hzero : ([Cmd.post t n].filterMap (T.cmd s.shared)).count A.draw = 0 :=
        count_token_of_ne fun heq ↦ hne (Option.some.inj ((hpost t n).symm.trans heq))
      have hnil : (([] : List (Cmd ι σ)).filterMap (T.cmd s.shared)).count A.draw = 0 := rfl
      have hnothing : (emitted s.shared (.post t n) []).count (.freed A.draw A.input) = 0 := rfl
      omega
    | postDone hfits =>
      rename_i t n
      have htotal := Tally.total_posted (T := T) hc A.draw
      have hsame : ([Cmd.post t n].filterMap (T.cmd s.shared)).count A.draw =
          ([n].filterMap (T.msg s.shared)).count A.draw :=
        count_token_congr (by rw [hpost, hmsg])
      have hsem : ([Cmd.semPost t].filterMap (T.cmd s.shared)).count A.draw = 0 :=
        count_token_of_ne (by rw [hidle.2]; exact Option.some_ne_none _ ∘ Eq.symm)
      have hnothing : (emitted s.shared (.post t n) [.semPost t]).count
          (.freed A.draw A.input) = 0 := rfl
      dsimp only at htotal
      omega
    | _ => exact absurd hqueue (by simp)
  · rw [not_or, not_exists] at hqueue
    have hother : ∀ t m, c ≠ .post t m := fun t m heq ↦ hqueue.2 t ⟨m, heq⟩
    have htotal := Tally.total_step (T := T) h.toGood hc hmove
      (hmove.mq_eq hqueue.1 hother) A.draw
    have htrade := htraded hqueue.1 hother
    omega

/-- **The step lemma**: user code must not pass the block on before it has been freed. -/
theorem step (h : Handed cfg A block s) (hc : s.threads i = c :: rest)
    (he : Effect cfg i c a s.shared sh' cs)
    (hgood : Good cfg ⟨sh', Function.update s.threads i (cs ++ rest)⟩)
    (hok : ∀ k f, c = .userCode k → a = .api f → f.payload? = some A.input →
      .freed A.draw A.input ∈ s.shared.trace) :
    Handed cfg A block ⟨sh', Function.update s.threads i (cs ++ rest)⟩ :=
  ⟨h.toDrawn.step hc he hgood, h.isBlock, h.sole_step hc he hok, h.live_step hc he⟩

end Handed

/-! ### The first state -/

/-- User code is about to send a message with a new draw and a block that nothing else holds. -/
structure Opens (cfg : Config ι σ) (i : ι) (f : Api ι σ) (A : SendArgs ι σ) (block : List UInt8)
    (s : State ι σ) : Prop extends Draws cfg i f A s where
  isBlock : pbPayload A.input = true
  allocated : s.shared.heap A.input = some block
  sole : ∀ d, ¬Holds s A.input d

namespace Opens

variable {f : Api ι σ} {k : UserCode ι σ}

theorem sole_opened (h : Opens cfg i f A block s) {rest : List (Cmd ι σ)}
    (hc : s.threads i = .userCode k :: rest) {d : ℕ}
    (hd : Holds ⟨(callApi cfg i s.shared f).1, Function.update s.threads i
      (((callApi cfg i s.shared f).2 ++ [.userCode k]) ++ rest)⟩ A.input d) : d = A.draw := by
  have hsame := sameMessages_callApi cfg i s.shared f
  cases hd with
  | sending hb htype hp =>
    rcases h.mem_cases hc hb with heq | ⟨o, heq⟩ | hbefore
    · rw [Cmd.send.inj heq]
    · cases heq
    · exact absurd (.sending hbefore htype hp) (h.sole _)
  | carried hx hm htype hp =>
    dsimp only at htype hp ⊢
    rw [hsame.pool_eq] at htype hp ⊢
    rcases h.mem_cases hc hx with rfl | ⟨o, rfl⟩ | hbefore
    · cases hm
    · cases hm
    · exact absurd (.carried hbefore hm htype hp) (h.sole _)
  | queued hm htype hp =>
    dsimp only at hm htype hp ⊢
    rw [hsame.mq_eq] at hm
    rw [hsame.pool_eq] at htype hp ⊢
    exact absurd (.queued hm htype hp) (h.sole _)

/-- The block has not been freed under the new draw. -/
theorem freed_eq_zero (h : Opens cfg i f A block s) (hnum : Numbered s) :
    (heapEvents (callApi cfg i s.shared f).1).count (.freed A.draw A.input) = 0 := by
  rw [heapEvents_callApi]
  refine List.count_eq_zero.2 fun hmem ↦ ?_
  have hle := hnum.freed_le _ _ hmem
  have hdraw := h.draw_eq
  omega

/-- **The block is handed over when the message is being sent.** -/
theorem handed (h : Opens cfg i f A block s) (hgood : Good cfg s) (hnum : Numbered s)
    {t : State ι σ} (hstep : (fused cfg).step s (i, .api f) = some t) :
    Handed cfg A block t := by
  have hdrawn := h.drawn hgood hnum hstep
  obtain ⟨k, rest, hc, rfl, he⟩ := h.step_eq hstep
  exact ⟨hdrawn, h.isBlock, fun _ d hd ↦ h.sole_opened hc hd,
    fun _ ↦ (congrFun (heap_callApi f) A.input).trans h.allocated⟩

end Opens

end Invariant

end Mblue
