import Mblue.Schema.StructBuffer

/-!
# Mono buffers

A byte buffer serialized by `mblue_serialize_mono_buffer` is read back, in place, by
`mblue_unserialize_mono_buffer`. The pointer found is the same whatever follows the serialized
bytes, and nothing need follow them.
-/

namespace Mblue

/-- The bytes of the `dl_array` of a buffer, with their length prefix. -/
def monoBytes (buffer : List UInt8) : List UInt8 := structBytes dlArrayFields [.callback buffer]

theorem fits_dlArray (buffer : List UInt8) :
    List.Forall₂ Fits dlArrayFields [.callback buffer] := .cons (.bytes 1 buffer) .nil

theorem consecutive_dlArray : Consecutive dlArrayFields := by
  rw [Consecutive]
  decide

/-- The buffer is the last part of its `dl_array`. -/
theorem exists_monoBytes_eq (buffer : List UInt8) :
    ∃ front, monoBytes buffer = front ++ buffer := by
  rw [monoBytes, structBytes]
  simp only [wire, dlArrayFields, wireField, wireValue, List.append_nil, ← List.append_assoc]
  exact ⟨_, rfl⟩

theorem wire_nil : wire dlArrayFields [.callback []] = [10, 0] := by
  have htag : Varint.encode (1 <<< 3 ||| 2) = [10] := Varint.encode_of_lt (by decide)
  have hzero : Varint.encode 0 = [0] := Varint.encode_of_lt (by decide)
  show Varint.encode (1 <<< 3 ||| 2) ++ (Varint.encode 0 ++ []) ++ [] = _
  rw [htag, hzero]
  rfl

theorem monoBytes_nil : monoBytes [] = [2, 10, 0] := by
  have htwo : Varint.encode 2 = [2] := Varint.encode_of_lt (by decide)
  rw [monoBytes, structBytes, wire_nil]
  exact congrArg (· ++ _) htwo

/-- Where the pointer is, told by what lies behind it. Without data and with nothing behind it there
is but one buffer, on which the reader is run. -/
theorem unserializeMonoBuffer_monoBytes {buffer front tail : List UInt8}
    (hlen : (wire dlArrayFields [.callback buffer]).length < 2 ^ 28)
    (hfront : monoBytes buffer = front ++ buffer) :
    mblueUnserializeMonoBuffer (monoBytes buffer ++ tail) =
      .ok (.ok, some ⟨buffer.length, .block front.length⟩) := by
  obtain ⟨dest, hdest, hdec⟩ :=
    unserializeStruct_structBytes consecutive_dlArray (fits_dlArray buffer) hlen tail
  obtain ⟨d, ds, rfl, ⟨off, rfl, hoff⟩, hds⟩ := hdec
  rw [show ds = [] from hds] at hdest
  have hread : mblueUnserializeMonoBuffer (monoBytes buffer ++ tail) =
      .ok (.ok, some ⟨buffer.length, .block off⟩) := by
    rw [mblueUnserializeMonoBuffer, monoBytes, hdest]
    rfl
  change (monoBytes buffer ++ tail).drop off = buffer ++ tail at hoff
  rcases Nat.eq_zero_or_pos (buffer.length + tail.length) with hnil | hpos
  · obtain rfl : buffer = [] := List.length_eq_zero_iff.1 (by omega)
    obtain rfl : tail = [] := List.length_eq_zero_iff.1 (by omega)
    rw [monoBytes_nil, List.append_nil] at hfront ⊢
    rw [← hfront]
    decide
  · have htotal := congrArg List.length hoff
    rw [List.length_drop, hfront] at htotal
    simp only [List.length_append] at htotal
    obtain rfl : off = front.length := by omega
    exact hread

/-- **Mono buffers round-trip.** Where there is memory the buffer is serialized at the front of a
block; whatever starts with these bytes, the bytes alone included, is read as the length and a
pointer to the buffer inside them. -/
theorem monoBuffer_roundTrip (g : ℕ → UInt8) {buffer : List UInt8}
    (hlen : (wire dlArrayFields [.callback buffer]).length < 2 ^ 28) :
    ∃ block, mblueSerializeMonoBuffer (some g) buffer = .ok ⟨some block, 0⟩ ∧
      monoBytes buffer <+: block ∧
      ∃ off, off + buffer.length = (monoBytes buffer).length ∧
        (monoBytes buffer).drop off = buffer ∧
        ∀ block', monoBytes buffer <+: block' →
          mblueUnserializeMonoBuffer block' = .ok (.ok, some ⟨buffer.length, .block off⟩) := by
  obtain ⟨block, hser, hpre⟩ := exists_serializeStruct g (typed_of_fits (fits_dlArray buffer))
    consecutive_dlArray.tag_lt hlen
  obtain ⟨front, hfront⟩ := exists_monoBytes_eq buffer
  refine ⟨block, hser, hpre, front.length, ?_, ?_, ?_⟩
  · rw [hfront, List.length_append]
  · rw [hfront, List.drop_left]
  · rintro block' ⟨tail, rfl⟩
    exact unserializeMonoBuffer_monoBytes hlen hfront

/-- Two full chunks of the drain loop. -/
theorem monoBuffer_roundTrip_chunks :
    ∃ block, mblueSerializeMonoBuffer (some fun _ ↦ 0) (List.replicate 32 7) =
        .ok ⟨some block, 0⟩ ∧
      monoBytes (List.replicate 32 7) <+: block ∧
      ∃ off, off + (List.replicate 32 (7 : UInt8)).length =
          (monoBytes (List.replicate 32 7)).length ∧
        (monoBytes (List.replicate 32 7)).drop off = List.replicate 32 7 ∧
        ∀ block', monoBytes (List.replicate 32 7) <+: block' →
          mblueUnserializeMonoBuffer block' =
            .ok (.ok, some ⟨(List.replicate 32 (7 : UInt8)).length, .block off⟩) := by
  have htag : Varint.encode (1 <<< 3 ||| 2) = [10] := Varint.encode_of_lt (by decide)
  have hcount : Varint.encode 32 = [32] := Varint.encode_of_lt (by decide)
  refine monoBuffer_roundTrip (fun _ ↦ 0) ?_
  show (Varint.encode (1 <<< 3 ||| 2) ++ (Varint.encode 32 ++ List.replicate 32 7) ++ []).length < _
  rw [htag, hcount]
  decide

end Mblue
