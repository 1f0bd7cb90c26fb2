import Mblue.Properties.ParserLookup
import Mblue.Schema.Containment

/-!
# Requests from a client that is not trusted

`default_ipc_handler` opens the payload of a request as a stream without a bound, so nothing but the
two length prefixes keeps the decoder inside the block. When the prefixes do, everything else is
checked: whatever the bytes of the header and of the struct are, the request is rejected or the
handler gets pointers to bytes of the block (`ArgsInside`), with the one exception of the layout
index, which is an unchecked array access. `readRequest_inside_iff` says exactly that.

A pointer that does not point into the block points at the ten-byte buffer of the decoder, whose
frame is gone when the handler runs. This is what a data member with a scalar wire type leads to.
-/

namespace Mblue

open PbIstream

/-- `n` bytes at a pointer lie in the block, or in the decoder's buffer. -/
def BytePtr.PointsAt (block : List UInt8) (n : ℕ) : BytePtr → Prop
  | .null => False
  | .block off => off + n ≤ block.length
  | .stack off => off + n ≤ 10

/-- The length that is passed after a pointer, if one is. -/
def lengthAfter : List HandlerArg → ℕ
  | .size n :: _ => n
  | _ => 0

/-- The pointers among the arguments, with the lengths that come with them, are inside. -/
def ArgsInside (block : List UInt8) : List HandlerArg → Prop
  | [] => True
  | .pointer p :: args => p.PointsAt block (lengthAfter args) ∧ ArgsInside block args
  | _ :: args => ArgsInside block args

/-- A parser answers with the code for bytes that do not decode, or calls the handler with pointers
that are inside. -/
def ParserResult.Inside (block : List UInt8) : ParserResult → Prop
  | .ret w => w = makeInteger MblueErrcode.errPbDecode.toInt
  | .call args => ArgsInside block args

/-- A request is turned down or handed to a parser that stays inside. -/
def RequestOutcome.Inside (block : List UInt8) : RequestOutcome → Prop
  | .headerFailed => True
  | .noHandler => True
  | .parsed r => r.Inside block

section Args

variable {block : List UInt8} {fields : List PbField} {dest : List (PbValue MblueByteBundler)}

theorem argsInside_bytesAndLen (h : List.Forall₂ (Decoded block) fields dest) :
    ArgsInside block (handlerArgs bytesAndLen dest) := by
  induction h with
  | nil => trivial
  | cons hv _ ih =>
    cases hv with
    | int32 v hatype hltype => exact ih
    | chars bytes hatype hltype hsize hzero => exact ih
    | block off len hatype hlen => exact ⟨hlen, ih⟩
    | stack off len hatype hlen => exact ⟨hlen, ih⟩

theorem lengthAfter_charPointer (dest : List (PbValue MblueByteBundler)) :
    lengthAfter (handlerArgs charPointer dest) = 0 := by
  induction dest with
  | nil => rfl
  | cons v dest ih =>
    cases v with
    | int32 v => rfl
    | chars bytes => exact ih
    | callback b => rfl

theorem argsInside_charPointer (h : List.Forall₂ (Decoded block) fields dest) :
    ArgsInside block (handlerArgs charPointer dest) := by
  induction h with
  | nil => trivial
  | @cons _ _ _ dest hv _ ih =>
    have hzero := lengthAfter_charPointer dest
    cases hv with
    | int32 v hatype hltype => exact ih
    | chars bytes hatype hltype hsize hzero => exact ih
    | block off len hatype hlen =>
      refine ⟨?_, ih⟩
      show off + lengthAfter (handlerArgs charPointer dest) ≤ block.length
      omega
    | stack off len hatype hlen =>
      refine ⟨?_, ih⟩
      show off + lengthAfter (handlerArgs charPointer dest) ≤ 10
      omega

end Args

/-! ### Parsers -/

/-- A parser that stays inside whatever the bytes of its struct are. -/
def PbParserFunc.Contained (parser : PbParserFunc) : Prop :=
  ∀ (s : PbIstream) (body : List UInt8), s.Reads (delimited body) → body.length < 2 ^ 32 →
    s.onStack = false → ∃ r, parser s = .ok r ∧ r.Inside s.buf

theorem simpleRequestParser_contained : simpleRequestParser.Contained :=
  fun _ _ _ _ _ ↦ ⟨.call [], rfl, trivial⟩

theorem layoutParser_contained (fields : List PbField) {data : MblueByteBundler → List HandlerArg}
    (hdata : ∀ block dest, List.Forall₂ (Decoded block) fields dest →
      ArgsInside block (handlerArgs data dest)) : (layoutParser fields data).Contained := by
  intro s body hs hlen hblock
  have hmeets := pbDecodeDelimited_meets mbluePbGetBytesPointer_contained hs hlen hblock fields
  unfold layoutParser
  cases hdec : pbDecodeDelimited mbluePbGetBytesPointer s fields with
  | ok r =>
    rw [hdec] at hmeets
    exact ⟨_, rfl, hdata _ _ hmeets.1⟩
  | error e =>
    rw [hdec] at hmeets
    obtain rfl : e = .failed := hmeets
    exact ⟨_, rfl, rfl⟩

/-- **Every parser of the table** stays inside. -/
theorem parser_contained {l : PbLayoutParser} (hl : l ∈ mbluePbDataLayoutArray) :
    l.parser.Contained := by
  have hbytes (fields : List PbField) : (layoutParser fields bytesAndLen).Contained :=
    layoutParser_contained fields fun _ _ h ↦ argsInside_bytesAndLen h
  have hchars : dl113Parser.Contained :=
    layoutParser_contained dl113Fields fun _ _ h ↦ argsInside_charPointer h
  revert l
  simp only [mbluePbDataLayoutArray, List.forall_mem_cons, List.not_mem_nil, false_implies,
    implies_true, and_true]
  exact ⟨simpleRequestParser_contained, hbytes _, hbytes _, hbytes _, hbytes _, hchars, hbytes _,
    hbytes _, hbytes _⟩

/-! ### Requests -/

section Request

variable {header body rest : List UInt8}

/-- The stream over the payload reads the header's message. -/
theorem reads_header (hlen : (delimited header ++ (delimited body ++ rest)).length < 2 ^ 32) :
    (pbIstreamFromBuffer (delimited header ++ (delimited body ++ rest)) (2 ^ 32 - 1)).Reads
      (delimited header ++ delimited body) := by
  refine ⟨Nat.zero_le _, ?_, ?_⟩
  · simp only [List.length_append] at hlen ⊢
    show _ ≤ 2 ^ 32 - 1
    omega
  · rw [← List.append_assoc]
    exact List.prefix_append _ _

/-- A header that decodes is a method name and an index. -/
theorem header_eq_of_decoded {block : List UInt8} {dest : List (PbValue MblueByteBundler)}
    (h : List.Forall₂ (Decoded block) dlRpcHeaderFields dest) :
    ∃ name layoutIndex, dest = [name, .int32 layoutIndex] := by
  rw [dlRpcHeaderFields] at h
  cases h with
  | cons hname h =>
    cases h with
    | cons hindex h =>
      cases h with
      | nil =>
        cases hindex with
        | int32 v hatype hltype => exact ⟨_, v, rfl⟩
        | chars bytes hatype hltype hsize hzero => exact absurd rfl hltype
        | block off len hatype hlen => cases hatype
        | stack off len hatype hlen => cases hatype

/-- The unchecked access to the table. -/
theorem mbluePbDataParserGet_of_lt {index : ℕ} (h : index < pbMax) :
    ∃ l ∈ mbluePbDataLayoutArray, mbluePbDataParserGet index = .ok l.parser := by
  have hlt : index < mbluePbDataLayoutArray.length := h
  refine ⟨mbluePbDataLayoutArray[index], List.getElem_mem hlt, ?_⟩
  rw [mbluePbDataParserGet, List.getElem?_eq_getElem hlt]
  rfl

theorem mbluePbDataParserGet_of_le {index : ℕ} (h : pbMax ≤ index) :
    mbluePbDataParserGet index = .error .fault := by
  rw [mbluePbDataParserGet, List.getElem?_eq_none h]
  rfl

/-- **A framed request is read inside its block** exactly when the layout index of its header is in
the table, or no handler is called: the bytes of the header and of the struct are arbitrary. -/
theorem readRequest_inside_iff (ipcFunc : Word)
    (hlen : (delimited header ++ (delimited body ++ rest)).length < 2 ^ 32) :
    (∃ outcome, readRequest (some (delimited header ++ (delimited body ++ rest))) ipcFunc =
        .ok outcome ∧ outcome.Inside (delimited header ++ (delimited body ++ rest))) ↔
      ipcFunc = 0 ∨ HeaderInRange (delimited header ++ (delimited body ++ rest)) := by
  have hreads := reads_header hlen
  have hheader : header.length < 2 ^ 32 ∧ body.length < 2 ^ 32 := by
    simp only [delimited, List.length_append] at hlen
    omega
  have hmeets := pbDecodeDelimited_meets mbluePbGetBytesPointer_contained hreads.left hheader.1 rfl
    dlRpcHeaderFields
  rw [HeaderInRange, readRequest]
  generalize hblock : delimited header ++ (delimited body ++ rest) = block at *
  cases hdec : pbDecodeDelimited mbluePbGetBytesPointer (pbIstreamFromBuffer block (2 ^ 32 - 1))
    dlRpcHeaderFields with
  | error e =>
    rw [hdec] at hmeets
    obtain rfl : e = .failed := hmeets
    refine iff_of_true ⟨.headerFailed, rfl, trivial⟩ (.inr fun name layoutIndex stream h ↦ ?_)
    cases h
  | ok r =>
    rw [hdec] at hmeets
    obtain ⟨dest, stream⟩ := r
    obtain ⟨hdest, hstream⟩ := hmeets
    obtain ⟨name, layoutIndex, rfl⟩ := header_eq_of_decoded hdest
    dsimp only at hstream
    have hrange : (∀ name' layoutIndex' stream', (Except.ok ([name, .int32 layoutIndex], stream) :
        PbM (List (PbValue MblueByteBundler) × PbIstream)) =
          .ok ([name', .int32 layoutIndex'], stream') → layoutIndex'.toNat % 2 ^ 16 < pbMax) ↔
        layoutIndex.toNat % 2 ^ 16 < pbMax := by
      refine ⟨fun h ↦ h _ _ _ rfl, fun h name' layoutIndex' stream' heq ↦ ?_⟩
      cases heq
      exact h
    rw [hrange, orElse]
    dsimp only
    rcases eq_or_ne ipcFunc 0 with hnull | hfunc
    · rw [if_pos hnull]
      exact iff_of_true ⟨.noHandler, rfl, trivial⟩ (.inl hnull)
    rw [if_neg hfunc, or_iff_right hfunc]
    -- the table of parsers is read at the index, whatever it is
    rcases Nat.lt_or_ge (layoutIndex.toNat % 2 ^ 16) pbMax with hlt | hge
    · obtain ⟨l, hl, hget⟩ := mbluePbDataParserGet_of_lt hlt
      have hbody : stream.Reads (delimited body) := hstream ▸ hreads.right
      obtain ⟨r, hr, hinside⟩ := parser_contained hl stream body hbody hheader.2 (hstream ▸ rfl)
      refine iff_of_true ⟨.parsed r, ?_, ?_⟩ hlt
      · rw [hget, ok_bind, hr]
        rfl
      · rw [hstream] at hinside
        exact hinside
    · refine iff_of_false ?_ (Nat.not_lt.2 hge)
      rintro ⟨outcome, houtcome, -⟩
      rw [mbluePbDataParserGet_of_le hge] at houtcome
      cases houtcome

end Request

/-- A request for the method `a` with a `PB_1` struct that ends after its first tag. -/
theorem readRequest_inside_truncated : ∃ outcome, readRequest
      (some (delimited [0x0A, 1, 0x61, 0x10, 1] ++ (delimited [0x08] ++ [0, 0, 0]))) 0x20000 =
        .ok outcome ∧
    outcome.Inside (delimited [0x0A, 1, 0x61, 0x10, 1] ++ (delimited [0x08] ++ [0, 0, 0])) := by
  have hblock : delimited [0x0A, 1, 0x61, 0x10, 1] ++ (delimited [0x08] ++ [0, 0, 0]) =
      [5, 0x0A, 1, 0x61, 0x10, 1, 1, 0x08, 0, 0, 0] := by
    rw [delimited, delimited, Varint.encode_of_lt (by decide), Varint.encode_of_lt (by decide)]
    rfl
  refine (readRequest_inside_iff 0x20000 (by rw [hblock]; decide)).2 (.inr ?_)
  rw [hblock]
  intro name layoutIndex stream h
  obtain rfl : layoutIndex = 1 := by
    have hdec : pbDecodeDelimited mbluePbGetBytesPointer
        (pbIstreamFromBuffer [5, 0x0A, 1, 0x61, 0x10, 1, 1, 0x08, 0, 0, 0] (2 ^ 32 - 1))
        dlRpcHeaderFields =
        .ok ([.chars (0x61 :: List.replicate 31 0), .int32 1],
          ⟨[5, 0x0A, 1, 0x61, 0x10, 1, 1, 0x08, 0, 0, 0], false, 6, 2 ^ 32 - 7⟩) := by rfl
    rw [hdec] at h
    cases h
    rfl
  decide

end Mblue
