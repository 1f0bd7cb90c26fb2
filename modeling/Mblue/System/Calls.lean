import Mblue.System.Forwarding

/-!
# What a step does to the synchronous calls

An activation of `mblue_remote_call` has a cell, the variable `out` whose address travels with the
request. What remains of the activation stands at the front of the caller's list: one of `send`,
`syncCheck` and `tpend` while the request is under way (`Cmd.front?`), and `remoteReturn` behind it
(`Cmd.return?`). The answer is a token in the caller's `call_sem`, put there by `tpost`.

`CallMove` lists what commands do to cells and tokens. A command that does nothing to them still
passes on what it mentions, so the counts of `Library/Threads.lean` follow each call through its
activation. **The list assumes that nothing disturbs the calls** (`Undisturbed`): this is the
condition under which `mblue_remote_call` can be trusted.
-/

set_option linter.unusedSectionVars false

namespace Mblue

variable {ι σ : Type} [DecidableEq ι] [DecidableEq σ]

namespace Cmd

/-- The call that waits for a command at the front of its thread. -/
def front? : Cmd ι σ → Option CellId
  | .send a => a.out
  | .syncCheck _ c => c
  | .tpend _ c => c
  | _ => none

/-- The call that returns with a command. -/
def return? : Cmd ι σ → Option CellId
  | .remoteReturn c => some c
  | _ => none

/-- The call for whose caller a command posts a token. -/
def tpost? : Cmd ι σ → Option CellId
  | .tpost _ c => some c
  | _ => none

end Cmd

/-! ### The condition -/

/-- What must not happen to the calls: a pend fails, `mblue_remote_call` is called outside a task or
finds no free message, the sender reads the message's type and source after the message was used
again, a request finds the bus under its own number. -/
def undisturbed (cfg : Config ι σ) (i : ι) (c : Cmd ι σ) (a : Choice ι σ) (sh : Shared ι σ) : Bool :=
  match c, a with
  | .tpend _ _, .fail => false
  | .userCode _, .api (.mblueRemoteCall _ _ _) => cfg.isTask i
  | .send args, _ => args.out.isNone || (sh.alloc (initMessage cfg args)).isSome
  | .syncCheck m none, _ => (sh.pool m).type != some .syncCall
  | .syncCheck m (some _), _ =>
    (sh.pool m).type == some .syncCall && (sh.pool m).src == .task i
  | .busCall m, _ => (sh.pool m).major.bind cfg.node != some cfg.bus
  | _, _ => true

/-- Nothing disturbs the calls. -/
def Undisturbed (cfg : Config ι σ) (i : ι) (c : Cmd ι σ) (a : Choice ι σ) (sh : Shared ι σ) : Prop :=
  undisturbed cfg i c a sh = true

instance (cfg : Config ι σ) (i : ι) (c : Cmd ι σ) (a : Choice ι σ) (sh : Shared ι σ) :
    Decidable (Undisturbed cfg i c a sh) :=
  inferInstanceAs (Decidable (undisturbed cfg i c a sh = true))

theorem Undisturbed.noSelf {cfg : Config ι σ} {i : ι} {c : Cmd ι σ} {a : Choice ι σ}
    {sh : Shared ι σ} (h : Undisturbed cfg i c a sh) : NoSelf cfg i c a sh := by
  rintro m major rfl hmajor hnode
  have hne : (sh.pool m).major.bind cfg.node != some cfg.bus := h
  rw [hmajor, Option.bind_some, hnode, bne_self_eq_false] at hne
  exact absurd hne Bool.false_ne_true

/-! ### The list -/

/-- Two states that agree on the calls. -/
structure SameCells (sh sh' : Shared ι σ) : Prop where
  cells_eq : sh'.cells = sh.cells
  ncells_eq : sh'.ncells = sh.ncells
  callSem_eq : sh'.callSem = sh.callSem

theorem sameCells_release (sh : Shared ι σ) (m : MsgId) : SameCells sh (sh.release m) := by
  unfold Shared.release
  dsimp only
  split <;> exact ⟨rfl, rfl, rfl⟩

/-- What a command does to the calls. -/
inductive CallMove (cfg : Config ι σ) (i : ι) :
    Cmd ι σ → Shared ι σ → Shared ι σ → List (Cmd ι σ) → Prop
  /-- Nothing; the calls it mentions, if any, are passed on. -/
  | quiet {c sh sh' cs} (hsame : SameCells sh sh')
      (hfront : cs.filterMap Cmd.front? = [c].filterMap Cmd.front?)
      (hreturn : cs.filterMap Cmd.return? = [c].filterMap Cmd.return?)
      (htpost : cs.filterMap Cmd.tpost? = [c].filterMap Cmd.tpost?) : CallMove cfg i c sh sh' cs
  /-- A call begins. -/
  | called {k sh major minor input} (htask : cfg.isTask i = true) :
      CallMove cfg i (.userCode k) sh (callApi cfg i sh (.mblueRemoteCall major minor input)).1
        ((callApi cfg i sh (.mblueRemoteCall major minor input)).2 ++ [.userCode k])
  /-- The caller takes a token. -/
  | took {t c d rest sh} (hsem : sh.callSem t = d :: rest) :
      CallMove cfg i (.tpend t (some c)) sh
        (Shared.takeToken { sh with callSem := Function.update sh.callSem t rest } c d) []
  /-- A call ends. -/
  | returned {c sh} : CallMove cfg i (.remoteReturn c) sh (sh.returnCell c) []
  /-- A return is written into a cell. -/
  | wrote {d sh major e t c} (hmajor : (sh.pool d).major = some major)
      (hmem : e ∈ sh.callList major) (hseq : (sh.pool e.msg).seq = (sh.pool d).seq)
      (hsrc : (sh.pool e.msg).src = .task t) (haux : (sh.pool e.msg).aux = .ipcReturn c) :
      CallMove cfg i (.busCallReturn d) sh
        ((sh.writeCell c major (sh.pool d).seq (sh.pool d).smartPayload).log
          (.wrote c (sh.pool d).smartPayload))
        [.tpost t c, .complete major e, .release d]
  /-- A token is posted. -/
  | tposted {t c sh} :
      CallMove cfg i (.tpost t c) sh
        (Shared.log { sh with callSem := Function.update sh.callSem t (sh.callSem t ++ [c]) }
          (.posted t c)) []

theorem getHandler_mentions {cfg : Config ι σ} {ms : σ} {m : MsgId} {type : MessageType}
    {handler : Cmd ι σ} (h : getHandler cfg ms m type = some handler) :
    [handler].filterMap Cmd.front? = [] ∧ [handler].filterMap Cmd.return? = [] ∧
      [handler].filterMap Cmd.tpost? = [] := by
  cases handles_of_getHandler h <;> exact ⟨rfl, rfl, rfl⟩

/-- **What an undisturbed effect does to the calls.** -/
theorem callMove_of_effect {cfg : Config ι σ} {i : ι} {c : Cmd ι σ} {a : Choice ι σ}
    {sh sh' : Shared ι σ} {cs : List (Cmd ι σ)} (h : Effect cfg i c a sh sh' cs)
    (hok : Undisturbed cfg i c a sh) (hpend : ∀ t o, c = .tpend t o → o ≠ none) :
    CallMove cfg i c sh sh' cs := by
  cases h with
  | removed hmq hdst htype hhandler =>
    obtain ⟨hfront, hreturn, htpost⟩ := getHandler_mentions hhandler
    exact .quiet ⟨rfl, rfl, rfl⟩ hfront hreturn htpost
  | userCall hmay =>
    rename_i k f
    cases f with
    | mblueRemoteCall major minor input => exact .called hok
    | targetSignal source major minor dest data extra =>
      refine .quiet ?_ rfl rfl rfl
      unfold callApi
      dsimp only
      split <;> exact ⟨rfl, rfl, rfl⟩
    | _ => exact .quiet ⟨rfl, rfl, rfl⟩ rfl rfl rfl
  | sendFailed hnone =>
    rename_i args
    have hout : (args.out.isNone || (sh.alloc (initMessage cfg args)).isSome) = true := hok
    rw [hnone, Option.isSome_none, Bool.or_false, Option.isNone_iff_eq_none] at hout
    -- only a message nobody waits for may be lost
    have hfront : (Cmd.send args).front? = none := hout
    refine .quiet ⟨rfl, rfl, rfl⟩ ?_ rfl rfl
    rw [List.filterMap_nil, List.filterMap_cons_none hfront, List.filterMap_nil]
  | sendDone halloc hctx =>
    obtain ⟨free, -, rfl⟩ := alloc_eq_some halloc
    exact .quiet ⟨rfl, rfl, rfl⟩ rfl rfl rfl
  | checkedOther htype =>
    rename_i m o
    cases o with
    | none => exact .quiet ⟨rfl, rfl, rfl⟩ rfl rfl rfl
    | some c =>
      have hboth : ((sh.pool m).type == some .syncCall && (sh.pool m).src == .task i) = true := hok
      rw [Bool.and_eq_true, beq_iff_eq] at hboth
      exact absurd hboth.1 htype
  | checkedNull htype hsrc =>
    rename_i m o
    cases o with
    | none => exact .quiet ⟨rfl, rfl, rfl⟩ rfl rfl rfl
    | some c =>
      have hboth : ((sh.pool m).type == some .syncCall && (sh.pool m).src == .task i) = true := hok
      rw [Bool.and_eq_true, beq_iff_eq, beq_iff_eq, hsrc] at hboth
      exact absurd hboth.2 (by simp)
  | tpendFailed => exact absurd hok Bool.false_ne_true
  | tpendTaken hsem =>
    rename_i t o d rest
    cases o with
    | none => exact absurd rfl (hpend t none rfl)
    | some c => exact .took hsem
  | callReturned => exact .returned
  | returnSync hmajor hfind htype hsrc haux =>
    have hseq := List.find?_some hfind
    rw [beq_iff_eq] at hseq
    exact .wrote hmajor (List.mem_of_find?_eq_some hfind) hseq hsrc haux
  | tposted => exact .tposted
  | subscribeReleased => exact .quiet (sameCells_release sh _) rfl rfl rfl
  | released => exact .quiet (sameCells_release sh _) rfl rfl rfl
  | completed =>
    rename_i major e
    obtain ⟨hcells, hncells, hcallSem⟩ := sameCells_release sh e.msg
    exact .quiet ⟨hcells, hncells, hcallSem⟩ rfl rfl rfl
  | loopReplicated hctx halloc =>
    obtain ⟨free, -, rfl⟩ := alloc_eq_some halloc
    exact .quiet ⟨rfl, rfl, rfl⟩ rfl rfl rfl
  | _ => exact .quiet ⟨rfl, rfl, rfl⟩ rfl rfl rfl

end Mblue
