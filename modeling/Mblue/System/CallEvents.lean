import Mblue.System.HeapEvents
import Mblue.System.Reduction

/-!
# What happens to the calls

The trace tells what becomes of a call at the bus (`callEvents`): its entry is linked, its return
cell written and its caller posted or its notifier called and freed, its entry unlinked. When
`bus_call_return` has found an entry, most of this is still to be done, and what is to be done can
be read off the bus's commands: the events to come (`Cmd.due`) and the call lists afterwards
(`settleAll`).

* `answering_of_runCmd` — **the accounting rule**: whatever a thread executes, the events so far and
  the events to come are the same before and after, and so are the call lists as they are going to
  be. Only `bus_call`, which links, and `bus_call_return`, which finds an entry, are not like this.
* `Effect.sameCall`, `Effect.out_eq` — a return cell stays with its call, and only `bus_call_return`
  writes it.
-/

set_option linter.unusedSectionVars false

namespace Mblue

variable {ι σ : Type}

/-! ### What is to come -/

/-- The call lists when the entry of a command has been unlinked. -/
def Cmd.settle (L : Major → List PendingCall) : Cmd ι σ → Major → List PendingCall
  | .complete major e | .unlink major e => Function.update L major ((L major).erase e)
  | _ => L

/-- The call lists when the entries of these commands have been unlinked. -/
def settleAll (cs : List (Cmd ι σ)) (L : Major → List PendingCall) : Major → List PendingCall :=
  cs.foldl Cmd.settle L

theorem settleAll_append (cs ds : List (Cmd ι σ)) (L : Major → List PendingCall) :
    settleAll (cs ++ ds) L = settleAll ds (settleAll cs L) :=
  List.foldl_append

/-- The command is one of those that follow when a return has found its entry. -/
def Cmd.answers : Cmd ι σ → Bool
  | .tpost _ _ | .freeNotifier _ | .complete _ _ | .unlink _ _ => true
  | _ => false

theorem Cmd.due_eq_nil {c : Cmd ι σ} (h : c.answers = false) : c.due = [] := by
  cases c <;> first | rfl | cases h

theorem Cmd.settle_eq {c : Cmd ι σ} (h : c.answers = false) (L : Major → List PendingCall) :
    c.settle L = L := by
  cases c <;> first | rfl | cases h

theorem flatMap_due_eq_nil {cs : List (Cmd ι σ)} (h : ∀ d ∈ cs, d.answers = false) :
    cs.flatMap Cmd.due = [] :=
  List.flatMap_eq_nil_iff.2 fun d hd ↦ Cmd.due_eq_nil (h d hd)

theorem settleAll_eq {cs : List (Cmd ι σ)} (h : ∀ d ∈ cs, d.answers = false)
    (L : Major → List PendingCall) : settleAll cs L = L := by
  induction cs generalizing L with
  | nil => rfl
  | cons c cs ih =>
    show settleAll cs (c.settle L) = L
    rw [Cmd.settle_eq (h c List.mem_cons_self), ih fun d hd ↦ h d (List.mem_cons_of_mem c hd)]

/-! ### One step -/

variable [DecidableEq ι] [DecidableEq σ] {cfg : Config ι σ} {i : ι} {c : Cmd ι σ} {a : Choice ι σ}
  {sh sh' : Shared ι σ} {cs : List (Cmd ι σ)} {x : CellId}

/-- Only a return that has found its entry is followed by such commands. -/
theorem Effect.answers_eq_false (h : Effect cfg i c a sh sh' cs)
    (hreturn : ∀ d, c ≠ .busCallReturn d) : ∀ d ∈ cs, d.answers = false := by
  cases h with
  | removed hmq hdst htype hhandler =>
    rw [List.forall_mem_singleton]
    cases handles_of_getHandler hhandler <;> rfl
  | userCall hmay =>
    rw [List.forall_mem_append, List.forall_mem_singleton]
    refine ⟨fun d hd ↦ ?_, rfl⟩
    rcases cmd_of_callApi hd with ⟨b, rfl⟩ | ⟨o, rfl⟩ <;> rfl
  | returnNoCalls | returnUnmatched | returnOther | returnSync | returnAsync =>
    exact absurd rfl (hreturn _)
  | _ => simp [Cmd.answers]

/-- The cell belongs to the same call, and an answer stays. -/
structure SameCall (sh sh' : Shared ι σ) (x : CellId) : Prop where
  lt : x < sh'.ncells
  caller_eq : (sh'.cells x).caller = (sh.cells x).caller
  major_eq : (sh'.cells x).major = (sh.cells x).major
  seq_eq : (sh'.cells x).seq = (sh.cells x).seq
  answers_eq : (sh'.cells x).answers = [] → (sh.cells x).answers = []

theorem Effect.sameCall (he : Effect cfg i c a sh sh' cs) (hx : x < sh.ncells) :
    SameCall sh sh' x := by
  -- writing a cell keeps the call, if the new contents do
  have hupdate : ∀ {sh' : Shared ι σ} (y : CellId) (cell : Cell ι), sh.ncells ≤ sh'.ncells →
      sh'.cells = Function.update sh.cells y cell → (y = x → cell.caller = (sh.cells y).caller ∧
        cell.major = (sh.cells y).major ∧ cell.seq = (sh.cells y).seq ∧
        (cell.answers = [] → (sh.cells y).answers = [])) → SameCall sh sh' x := by
    intro sh' y cell hle hcells hcell
    by_cases hxy : x = y
    · obtain ⟨hcaller, hmajor, hseq, hanswers⟩ := hcell hxy.symm
      subst hxy
      constructor <;> try rw [hcells, Function.update_self]
      exacts [hx.trans_le hle, hcaller, hmajor, hseq, hanswers]
    · constructor <;> try rw [hcells, Function.update_of_ne hxy]
      exacts [hx.trans_le hle, id]
  have hsame : ∀ {sh' : Shared ι σ}, sh'.ncells = sh.ncells → sh'.cells = sh.cells →
      SameCall sh sh' x := fun hn hcells ↦
    ⟨hn ▸ hx, by rw [hcells], by rw [hcells], by rw [hcells], by rw [hcells]; exact id⟩
  have hrelease : ∀ m, SameCall sh (sh.release m) x := fun m ↦ by
    unfold Shared.release
    dsimp only
    split <;> exact hsame rfl rfl
  cases he with
  | userCall hmay =>
    rename_i k f
    cases f with
    | mblueRemoteCall major minor input =>
      -- the new call has the next cell
      exact hupdate sh.ncells _ (Nat.le_succ _) rfl fun heq ↦ absurd heq hx.ne'
    | targetSignal source major minor dest data extra =>
      unfold callApi
      dsimp only
      split <;> exact hsame rfl rfl
    | _ => exact hsame rfl rfl
  | sendDone halloc =>
    obtain ⟨_, -, rfl⟩ := alloc_eq_some halloc
    exact hsame rfl rfl
  | loopReplicated hctx halloc =>
    obtain ⟨_, -, rfl⟩ := alloc_eq_some halloc
    exact hsame rfl rfl
  | tpendTaken hsem =>
    rename_i t o y tail
    cases o with
    | none => exact hsame rfl rfl
    | some z => exact hupdate z _ le_rfl rfl fun _ ↦ ⟨rfl, rfl, rfl, id⟩
  | callReturned => exact hupdate _ _ le_rfl rfl fun _ ↦ ⟨rfl, rfl, rfl, id⟩
  | returnSync =>
    exact hupdate _ _ le_rfl rfl fun _ ↦ ⟨rfl, rfl, rfl, fun hnil ↦ by simp at hnil⟩
  | subscribeReleased => exact hrelease _
  | released => exact hrelease _
  | completed =>
    rename_i major e
    obtain ⟨hlt, hcaller, hmajor, hseq, hanswers⟩ := hrelease e.msg
    exact ⟨hlt, hcaller, hmajor, hseq, hanswers⟩
  | _ => exact hsame rfl rfl

/-- Only `bus_call_return` writes a return cell. -/
theorem Effect.out_eq (h : Effect cfg i c a sh sh' cs) (hreturn : ∀ d, c ≠ .busCallReturn d)
    (hx : x < sh.ncells) : (sh'.cells x).out = (sh.cells x).out := by
  have hupdate : ∀ (y : CellId) (cell : Cell ι), (y = x → cell.out = (sh.cells y).out) →
      (Function.update sh.cells y cell x).out = (sh.cells x).out := by
    intro y cell hout
    by_cases hxy : x = y
    · rw [hxy, Function.update_self]
      exact hout hxy.symm
    · rw [Function.update_of_ne hxy]
  have hrelease : ∀ m, ((sh.release m).cells x).out = (sh.cells x).out := fun m ↦ by
    unfold Shared.release
    dsimp only
    split <;> rfl
  cases h with
  | userCall hmay =>
    rename_i k f
    cases f with
    | mblueRemoteCall => exact hupdate sh.ncells _ fun heq ↦ absurd heq hx.ne'
    | targetSignal source major minor dest data extra =>
      unfold callApi
      dsimp only
      split <;> rfl
    | _ => rfl
  | sendDone halloc =>
    obtain ⟨_, -, rfl⟩ := alloc_eq_some halloc
    rfl
  | loopReplicated hctx halloc =>
    obtain ⟨_, -, rfl⟩ := alloc_eq_some halloc
    rfl
  | tpendTaken hsem =>
    rename_i t o y tail
    cases o with
    | none => rfl
    | some z => exact hupdate z _ fun _ ↦ rfl
  | callReturned => exact hupdate _ _ fun _ ↦ rfl
  | returnNoCalls | returnUnmatched | returnOther | returnSync | returnAsync =>
    exact absurd rfl (hreturn _)
  | subscribeReleased | released | completed => exact hrelease _
  | _ => rfl

theorem Effect.ncells_le (h : Effect cfg i c a sh sh' cs) : sh.ncells ≤ sh'.ncells := by
  rcases Nat.eq_zero_or_pos sh.ncells with hzero | hpos
  · exact hzero.le.trans (Nat.zero_le _)
  · exact Nat.le_of_pred_lt (h.sameCall (Nat.pred_lt_of_lt hpos)).lt

/-- What executing a command does to the calls. -/
structure Answering (c : Cmd ι σ) (sh sh' : Shared ι σ) (cs : List (Cmd ι σ)) : Prop where
  events_eq : callEvents sh' ++ cs.flatMap Cmd.due = callEvents sh ++ c.due
  settle_eq : settleAll cs sh'.callList = c.settle sh.callList
  ncells_le : sh.ncells ≤ sh'.ncells
  out_eq : ∀ x < sh.ncells, (sh'.cells x).out = (sh.cells x).out

/-- Such commands follow a return that has found its entry, or the release of its request. -/
theorem answers_eq_false_of_runCmd (h : runCmd cfg i c a sh = some (sh', cs))
    (hreturn : ∀ d, c ≠ .busCallReturn d) (hcomplete : ∀ major e, c ≠ .complete major e) :
    ∀ d ∈ cs, d.answers = false := by
  by_cases hunlink : ∃ major e, c = .unlink major e
  · obtain ⟨major, e, rfl⟩ := hunlink
    obtain ⟨-, rfl⟩ := Prod.mk.inj (Option.some.inj h)
    simp
  · have hfused := (runFused_of_runCmd hcomplete fun major e heq ↦ hunlink ⟨major, e, heq⟩).trans h
    exact (effect_of_runFused hfused).answers_eq_false hreturn

theorem answering_of_runCmd (h : runCmd cfg i c a sh = some (sh', cs))
    (hcall : ∀ m, c ≠ .busCall m) (hreturn : ∀ d, c ≠ .busCallReturn d) :
    Answering c sh sh' cs := by
  by_cases hcomplete : ∃ major e, c = .complete major e
  · -- the entry is still to be unlinked
    obtain ⟨major, e, rfl⟩ := hcomplete
    obtain ⟨rfl, rfl⟩ := Prod.mk.inj (Option.some.inj h)
    have he : Effect cfg i (.complete major e) a sh
        (((sh.release e.msg).unlink major e).log (.unlinked major e)) [] := .completed
    refine ⟨?_, ?_, he.ncells_le, fun x hx ↦ he.out_eq hreturn hx⟩
    · exact (List.append_nil _).trans (he.callEvents_eq hcall hreturn)
    · show Function.update (sh.release e.msg).callList major
        (((sh.release e.msg).callList major).erase e) = _
      rw [callList_release]
      rfl
  · by_cases hunlink : ∃ major e, c = .unlink major e
    · obtain ⟨major, e, rfl⟩ := hunlink
      obtain ⟨rfl, rfl⟩ := Prod.mk.inj (Option.some.inj h)
      exact ⟨rfl, rfl, le_rfl, fun _ _ ↦ rfl⟩
    · have hfused := (runFused_of_runCmd (fun major e heq ↦ hcomplete ⟨major, e, heq⟩)
        fun major e heq ↦ hunlink ⟨major, e, heq⟩).trans h
      have he := effect_of_runFused hfused
      have hquiet := he.answers_eq_false hreturn
      have hlist := (move_of_effect he).callList_eq hcall fun major e heq ↦
        hcomplete ⟨major, e, heq⟩
      refine ⟨?_, ?_, ?_, fun x hx ↦ he.out_eq hreturn hx⟩
      · rw [flatMap_due_eq_nil hquiet, List.append_nil, he.callEvents_eq hcall hreturn]
      · rw [settleAll_eq hquiet, hlist]
        cases c with
        | complete major e => exact absurd ⟨major, e, rfl⟩ hcomplete
        | unlink major e => exact absurd ⟨major, e, rfl⟩ hunlink
        | _ => rfl
      · exact he.ncells_le

end Mblue
