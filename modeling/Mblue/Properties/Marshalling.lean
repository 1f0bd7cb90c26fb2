import Mblue.Schema.RoundTrip
import Mblue.System.Effects

/-!
# A serialized request reaches its handler

The marshalling round trip of `Schema/RoundTrip.lean`, in the system: a task that dispatches a request
whose payload is a block `mblue_serialize_ipc` returned calls the registered handler, with the
members of the serialized struct, and calls no other user code for this request.
-/

namespace Mblue

variable {ι σ : Type} [DecidableEq ι] [DecidableEq σ] {cfg : Config ι σ}

omit [DecidableEq ι] [DecidableEq σ] in
/-- When the handler of a request returns, no other user code is called for the request. -/
theorem userCode_not_mem_of_finish {i : ι} {sh : Shared ι σ} {ms : σ} {m : MsgId} {f w : Word}
    {args : List HandlerArg} {cs : List (Cmd ι σ)} {k : UserCode ι σ}
    (h : finishUserCode cfg i sh w (.service ms m f args) = some cs) : .userCode k ∉ cs := by
  obtain ⟨major, -, rfl⟩ := answerRequest_eq_some h
  simp

/-- **The marshalling round trip, from `mblue_serialize_ipc` to the handler.** -/
theorem dispatch_serialized {s : State ι σ} {i : ι} {ms : σ} {m : MsgId} {rest : List (Cmd ι σ)}
    {memory : Option (ℕ → UInt8)} {junk : UInt8} {method : List UInt8} {index frees : ℕ}
    {src : List (PbValue (List UInt8))} {block : List UInt8}
    (hindex : index < pbMax) (hmethod : 0 ∉ method) (hlen : method.length < maxIpcMethodNameLength)
    (hfit : LayoutFits index src)
    (hstring : passesCString index = true → ∀ data, .callback data ∈ src → 0 ∉ data)
    (hser : mblueSerializeIpc memory junk method index src = .ok ⟨some block, frees⟩)
    (hc : s.threads i = .ipcHandler ms m :: rest)
    (hpayload : pbPayload (s.shared.pool m).smartPayload = true)
    (hheap : s.shared.heap (s.shared.pool m).smartPayload = some block)
    (hfunc : cfg.findIpcHandlerFromService ms (s.shared.pool m).minor ≠ 0) (a : Choice ι σ) :
    ∃ args, Receives block (passesCString index) src args ∧
      (system cfg).step s (i, a) = some ⟨s.shared, Function.update s.threads i
        (.userCode (.service ms m (cfg.findIpcHandlerFromService ms (s.shared.pool m).minor) args) ::
          rest)⟩ ∧
      ∀ sh w cs k, finishUserCode cfg i sh w (.service ms m
        (cfg.findIpcHandlerFromService ms (s.shared.pool m).minor) args) = some cs →
        .userCode k ∉ cs := by
  obtain ⟨args, hread, hreceives⟩ :=
    readRequest_serialize hindex hmethod hlen hfit hstring hser hfunc
  refine ⟨args, hreceives, ?_, fun sh w cs k hfinish ↦ userCode_not_mem_of_finish hfinish⟩
  have hblock : payloadBlock (s.shared.pool m) s.shared = some (some block) := by
    rw [payloadBlock, if_pos hpayload, hheap, Option.map_some]
  have hrun : runCmd cfg i (.ipcHandler ms m) a s.shared = some (s.shared, [.userCode
      (.service ms m (cfg.findIpcHandlerFromService ms (s.shared.pool m).minor) args)]) := by
    rw [runCmd, runIpcHandler, hblock, Option.bind_some]
    simp only [hread]
  exact (system cfg).step_eq_some_iff.2 ⟨_, _, _, _, hc, hrun, rfl⟩

/-- A block with one negative integer and three bytes. -/
def sampleBlock : List UInt8 :=
  [7, 10, 3, 108, 111, 103, 16, 3, 16, 8, 251, 255, 255, 255, 255, 255, 255, 255, 255, 1, 18,
    3, 1, 2, 3, 0, 0, 0, 0, 0, 0, 0]

/-- The service of the small system, about to dispatch the block at address `8`. -/
def sampleDispatch : State (Fin 3) Bool where
  shared := { Shared.init 0 with
    heap := fun p ↦ if p = 8 then some sampleBlock else none
    pool := fun _ ↦ { Message.zero with smartPayload := 8 } }
  threads := fun i ↦ if i = 1 then [.ipcHandler false 0] else []

/-- The handler is called with `-5` and the three bytes. -/
theorem dispatch_sample : ∃ args, Receives sampleBlock false [.int32 (-5), .callback [1, 2, 3]] args ∧
    (system (.small 4 [] [⟨0, 4⟩])).step sampleDispatch (1, .go) =
      some ⟨sampleDispatch.shared, Function.update sampleDispatch.threads 1
        [.userCode (.service false 0 4 args)]⟩ := by
  have hser : mblueSerializeIpc (some fun _ ↦ 0) 0 [108, 111, 103] 3
      [.int32 (-5), .callback [1, 2, 3]] = .ok ⟨some sampleBlock, 0⟩ := by
    decide +kernel
  have hfit : LayoutFits 3 [.int32 (-5), .callback [1, 2, 3]] :=
    .cons (.int32 _ _) (.cons (.bytes _ _) .nil)
  obtain ⟨args, hreceives, hstep, -⟩ :=
    dispatch_serialized (by decide) (by decide) (by decide) hfit (fun h ↦ by cases h) hser
      (show sampleDispatch.threads 1 = [.ipcHandler false 0] from rfl) (by decide) rfl
      (show (Config.small 4 [] [⟨0, 4⟩]).findIpcHandlerFromService false 0 ≠ 0 by decide) .go
  exact ⟨args, hreceives, hstep⟩

end Mblue
