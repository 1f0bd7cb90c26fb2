import Mblue.Schema.Records
import Mblue.Schema.RoundTrip

/-!
# Requests written by other encoders

The parsers of the layout table take a struct from any sender that follows the wire format: the
members in any order, some of them more than once, and fields in between that the layout does not
have. The handler is called with the last value of each member, and not at all when a member is
missing (`parser_records`).
-/

namespace Mblue

open PbIstream

/-- **A parser of the table** on a message of well-formed records. -/
theorem parser_records {index : ℕ} (hindex : index < pbMax) {fields : List PbField}
    (hlayout : mbluePbDataLayoutGet index = .ok (some fields)) {rs : List WireRecord}
    (hrs : ∀ r ∈ rs, r.WellFormed fields) {s : PbIstream}
    (h : s.Reads (delimited (messageBytes rs))) (hlen : (messageBytes rs).length < 2 ^ 32)
    (hstack : s.onStack = false) :
    ∃ parser, mbluePbDataParserGet index = .ok parser ∧
      (AllSent fields rs → ∃ dest, List.Forall₂ (LastReceived s.buf rs) fields dest ∧
        parser s = .ok (.call (handlerArgs (dataArgs index) dest))) ∧
      (¬AllSent fields rs →
        parser s = .ok (.ret (makeInteger MblueErrcode.errPbDecode.toInt))) := by
  have hconsecutive : Consecutive fields ∧
      mbluePbDataParserGet index = .ok (layoutParser fields (dataArgs index)) := by
    rcases layout_cases hindex with ⟨hnone, -⟩ | ⟨fields', hcons, -, hlayout', hparser⟩
    · cases hnone.symm.trans hlayout
    · obtain rfl : fields' = fields := by
        cases hlayout'.symm.trans hlayout
        rfl
      rw [dataArgs]
      rcases hparser with ⟨hstring, hparser⟩ | ⟨hstring, -, hparser⟩
      · rw [hstring]
        exact ⟨hcons, hparser⟩
      · rw [hstring]
        exact ⟨hcons, hparser⟩
  obtain ⟨hcons, hparser⟩ := hconsecutive
  obtain ⟨hall, hmissing⟩ := pbDecodeDelimited_records hcons hrs h hlen hstack
  refine ⟨_, hparser, fun hsent ↦ ?_, fun hsent ↦ ?_⟩
  · obtain ⟨dest, hdec, hlast⟩ := hall hsent
    refine ⟨dest, hlast, ?_⟩
    rw [layoutParser, hdec]
    rfl
  · rw [layoutParser, hmissing hsent]
    rfl

/-- The records of a `PB_12` request: the data before the number, the number twice, and a field the
layout does not have. -/
def reorderedRecords : List WireRecord :=
  [.member (bytesField 2) (.callback [0x41, 0x42]), .member (int32Field 1) (.int32 3),
    .unknown 9 pbWt32bit [0, 0, 0, 0], .member (int32Field 1) (.int32 7)]

theorem delimited_reorderedRecords : delimited (messageBytes reorderedRecords) =
    [13, 0x12, 2, 0x41, 0x42, 0x08, 3, 0x4D, 0, 0, 0, 0, 0x08, 7] := by
  have hmessage : messageBytes reorderedRecords =
      [0x12, 2, 0x41, 0x42, 0x08, 3, 0x4D, 0, 0, 0, 0, 0x08, 7] := by
    simp only [messageBytes, reorderedRecords, List.flatMap_cons, List.flatMap_nil,
      WireRecord.bytes, wireField, wireValue, bytesField, int32Field, PbLtype.wireType]
    rw [Varint.encode_of_lt (by decide), Varint.encode_of_lt (by decide),
      Varint.encode_of_lt (by decide), Varint.encode_of_lt (by decide),
      Varint.encode_of_lt (by decide), Varint.encode_of_lt (by decide)]
    rfl
  rw [delimited, hmessage, Varint.encode_of_lt (by decide)]
  rfl

theorem wellFormed_reorderedRecords :
    ∀ r ∈ reorderedRecords, r.WellFormed dl12Fields := by
  have hint (v : BitVec 32) :
      WireRecord.WellFormed dl12Fields (.member (int32Field 1) (.int32 v)) :=
    .member List.mem_cons_self (.int32 1 v) fun data h ↦ by cases List.mem_singleton.1 h
  have hdata : Countable [.callback [0x41, 0x42]] := fun data h ↦ by
    cases List.mem_singleton.1 h
    decide
  have hunknown : WireRecord.WellFormed dl12Fields (.unknown 9 pbWt32bit [0, 0, 0, 0]) :=
    .unknown (by decide) (by decide) (by decide) (.fixed32 _ rfl)
  rw [reorderedRecords]
  simp only [List.forall_mem_cons, List.not_mem_nil, false_implies, implies_true, and_true]
  exact ⟨.member (List.mem_cons_of_mem _ List.mem_cons_self) (.bytes 2 _) hdata, hint 3, hunknown,
    hint 7⟩

/-- The handler gets `7` and the data. -/
theorem parser_records_reordered :
    ∃ parser, mbluePbDataParserGet PbTypeIndex.pb12.toNat = .ok parser ∧
      ∃ dest, List.Forall₂
          (LastReceived (delimited (messageBytes reorderedRecords)) reorderedRecords)
          dl12Fields dest ∧
        parser (pbIstreamFromBuffer (delimited (messageBytes reorderedRecords)) (2 ^ 32 - 1)) =
          .ok (.call (handlerArgs bytesAndLen dest)) := by
  have hbytes : (delimited (messageBytes reorderedRecords)).length = 14 :=
    congrArg List.length delimited_reorderedRecords
  have hmessage : (messageBytes reorderedRecords).length < 2 ^ 32 := by
    rw [delimited, List.length_append] at hbytes
    omega
  have hreads : (pbIstreamFromBuffer (delimited (messageBytes reorderedRecords)) (2 ^ 32 - 1)).Reads
      (delimited (messageBytes reorderedRecords)) :=
    ⟨Nat.zero_le _, hbytes.le.trans (by decide), List.prefix_rfl⟩
  have hlayout : mbluePbDataLayoutGet PbTypeIndex.pb12.toNat = .ok (some dl12Fields) := rfl
  obtain ⟨parser, hparser, hall, -⟩ :=
    parser_records (by decide) hlayout wellFormed_reorderedRecords hreads hmessage rfl
  exact ⟨parser, hparser, hall (by rw [AllSent]; decide)⟩

end Mblue
