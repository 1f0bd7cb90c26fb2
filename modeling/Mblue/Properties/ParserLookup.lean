import Mblue.Schema.Encoding
import Mblue.System.Machine

/-!
# The lookup of a request's parser

`default_ipc_handler` takes the index of the layout and the stream behind it from the header of the
payload. A payload that is no block leaves the index at `PB_MAX` and the stream uninitialised, and
the only guard is an assertion; an index that the header does hold is cut down to sixteen bits and
not compared with anything.
-/

namespace Mblue

/-- What `default_ipc_handler` has when it asks for a parser: the index, and the stream, `none` when
nothing has initialised it. -/
structure ParserLookup where
  index : ℕ
  stream : Option PbIstream
  deriving DecidableEq, Repr

/-- The index is one of the table's, and the parser gets a stream. -/
def ParserLookup.InRange (l : ParserLookup) : Prop := l.index < pbMax ∧ l.stream.isSome = true

/-- The variables `index` and `stream` after the payload's header has been read. -/
def readHeader (payload : Option (List UInt8)) : PbM ParserLookup :=
  match payload with
  | none => pure ⟨pbMax, none⟩
  | some block => do
    let (header, stream) ← pbDecodeDelimited mbluePbGetBytesPointer
      (pbIstreamFromBuffer block (2 ^ 32 - 1)) dlRpcHeaderFields
    match header with
    | [_, .int32 layoutIndex] => pure ⟨layoutIndex.toNat % 2 ^ 16, some stream⟩
    | _ => throw .fault

/-- `readRequest` reads the header, and then looks up and calls the parser; an uninitialised stream
stands for an empty one, on which it makes no difference, since there is no parser at `PB_MAX`. -/
theorem readRequest_eq (payload : Option (List UInt8)) (ipcFunc : Word) :
    readRequest payload ipcFunc = orElse (readHeader payload) (pure .headerFailed) fun l ↦
      if ipcFunc = 0 then pure .noHandler
      else (do
        let parser ← mbluePbDataParserGet l.index
        let r ← parser (l.stream.getD (pbIstreamFromBuffer [] 0))
        pure (.parsed r)) := by
  rcases payload with _ | block
  · rfl
  rw [readRequest, readHeader]
  rcases pbDecodeDelimited mbluePbGetBytesPointer (pbIstreamFromBuffer block (2 ^ 32 - 1))
    dlRpcHeaderFields with (_ | _) | ⟨header, stream⟩
  · rfl
  · rfl
  rcases header with _ | ⟨name, _ | ⟨v | bytes | b, _ | ⟨d, header⟩⟩⟩ <;> rfl

section Request

variable {ι σ : Type} {cfg : Config ι σ} {ms : σ} {sh : Shared ι σ} {msg : Message ι σ}

/-- Every lookup that `default_ipc_handler` of the segment makes for the message is in range. -/
def LookupsInRange (cfg : Config ι σ) (ms : σ) (sh : Shared ι σ) (msg : Message ι σ) : Prop :=
  ∀ payload l, payloadBlock msg sh = some payload → readHeader payload = .ok l →
    cfg.findIpcHandlerFromService ms msg.minor ≠ 0 → l.InRange

/-- The header of a block, if it decodes, has an index of the table in the low sixteen bits of its
`layout_index`. -/
def HeaderInRange (block : List UInt8) : Prop :=
  ∀ name layoutIndex stream, pbDecodeDelimited mbluePbGetBytesPointer
    (pbIstreamFromBuffer block (2 ^ 32 - 1)) dlRpcHeaderFields =
      .ok ([name, .int32 layoutIndex], stream) → layoutIndex.toNat % 2 ^ 16 < pbMax

/-- A header that decodes initialises the stream. -/
theorem readHeader_some_iff {block : List UInt8} :
    (∀ l, readHeader (some block) = .ok l → l.InRange) ↔ HeaderInRange block := by
  rw [HeaderInRange, readHeader]
  constructor
  · intro h name layoutIndex stream hdec
    rw [hdec] at h
    exact (h _ rfl).1
  · intro h l hl
    obtain ⟨⟨header, stream⟩, hdec, hl⟩ := bind_eq_ok hl
    dsimp only at hl
    split at hl
    · next name layoutIndex =>
      obtain rfl := Except.ok.inj hl
      exact ⟨h name layoutIndex stream hdec, rfl⟩
    · cases hl

/-- **The lookup is in range of exactly these requests**: those whose payload is a block with an
index of the table in its header, and those the segment has no handler for. -/
theorem lookupsInRange_iff : LookupsInRange cfg ms sh msg ↔
    cfg.findIpcHandlerFromService ms msg.minor = 0 ∨
      pbPayload msg.smartPayload = true ∧
        ∀ block, sh.heap msg.smartPayload = some block → HeaderInRange block := by
  rw [LookupsInRange]
  by_cases hfunc : cfg.findIpcHandlerFromService ms msg.minor = 0
  · exact iff_of_true (fun _ _ _ _ h ↦ absurd hfunc h) (.inl hfunc)
  rcases hp : pbPayload msg.smartPayload with _ | _
  · refine iff_of_false (fun h ↦ ?_) (not_or.2 ⟨hfunc, fun h ↦ by cases h.1⟩)
    have hnone : payloadBlock msg sh = some none := by
      rw [payloadBlock, hp, if_neg Bool.false_ne_true]
    exact absurd (h none ⟨pbMax, none⟩ hnone rfl hfunc).1 (lt_irrefl pbMax)
  · have hblock : payloadBlock msg sh = (sh.heap msg.smartPayload).map some := by
      rw [payloadBlock, hp, if_pos rfl]
    rw [hblock]
    constructor
    · refine fun h ↦ .inr ⟨rfl, fun block hheap ↦ readHeader_some_iff.1 fun l hl ↦ ?_⟩
      exact h (some block) l (by rw [hheap]; rfl) hl hfunc
    · rintro (h | ⟨-, h⟩) payload l hpayload hl -
      · exact absurd h hfunc
      · obtain ⟨block, hheap, rfl⟩ := Option.map_eq_some_iff.1 hpayload
        exact readHeader_some_iff.2 (h block hheap) l hl

end Request

/-- `mblue_remote_call(major, 0, NULL)` to a service with a handler for the minor number `0`. -/
theorem not_lookupsInRange_null : ∃ a, .send a ∈ (callApi (.small 4 [] [⟨0, 4⟩]) 2 (Shared.init 0)
      (.mblueRemoteCall mblueLogService 0 0)).2 ∧
    ¬ LookupsInRange (.small 4 [] [⟨0, 4⟩]) false (Shared.init 0)
      (initMessage (.small 4 [] [⟨0, 4⟩]) a) := by
  refine ⟨_, List.mem_cons_self, fun h ↦ ?_⟩
  exact absurd (h none ⟨pbMax, none⟩ rfl rfl (by decide)).1 (lt_irrefl pbMax)

end Mblue
