import Mblue.Schema.EncodingRoom

/-!
# A struct in a block of its own

`mblue_serialize_struct_with_layout` and `mblue_unserialize_struct_with_layout`: one delimited
struct, without a header. The block has four bytes for the length prefix, enough for every struct
whose encoding is shorter than `2 ^ 28` bytes. The reader opens a stream with no bound but that of
the address space, so it is the prefixes alone that keep it inside what was written
(`unserializeStruct_structBytes`).
-/

namespace Mblue

/-- `mblue_serialize_struct_with_layout`; `memory` is what the allocation returns. -/
def mblueSerializeStructWithLayout (memory : Option (ℕ → UInt8))
    (src : List (PbValue (List UInt8))) (fields : List PbField) : PbM Serialized :=
  orElse (pbGetEncodedSize mbluePbWriteBytes fields src) (pure ⟨none, 0⟩) fun size ↦ do
  let bufferSize := (size + 4) % 2 ^ 32
  match ← mblueMalloc memory bufferSize with
  | none => pure ⟨none, 0⟩
  | some p =>
    orElse (pbEncodeSubmessage mbluePbWriteBytes (pbOstreamFromBuffer p bufferSize) fields src)
      (pure ⟨none, 1⟩) fun stream ↦ pure ⟨some stream.block, 0⟩

/-- `mblue_unserialize_struct_with_layout`: the code and, when it is `MBLUE_OK`, the struct. -/
def mblueUnserializeStructWithLayout (data : List UInt8) (fields : List PbField) :
    PbM (MblueErrcode × Option (List (PbValue MblueByteBundler))) :=
  orElse (pbDecodeDelimited mbluePbGetBytesPointer (pbIstreamFromBuffer data (2 ^ 32 - 1)) fields)
    (pure (.errPbDecode, none)) fun (dest, _) ↦ pure (.ok, some dest)

/-- `mblue_serialize_mono_buffer`. -/
def mblueSerializeMonoBuffer (memory : Option (ℕ → UInt8)) (buffer : List UInt8) :
    PbM Serialized :=
  mblueSerializeStructWithLayout memory [.callback buffer] dlArrayFields

/-- `mblue_unserialize_mono_buffer`: the callback of the one member fills the caller's bundler. -/
def mblueUnserializeMonoBuffer (buffer : List UInt8) :
    PbM (MblueErrcode × Option MblueByteBundler) := do
  match ← mblueUnserializeStructWithLayout buffer dlArrayFields with
  | (rc, some [.callback bundler]) => pure (rc, some bundler)
  | (rc, _) => pure (rc, none)

/-- What is written for a struct. -/
def structBytes (fields : List PbField) (src : List (PbValue (List UInt8))) : List UInt8 :=
  Varint.encode (wire fields src).length ++ wire fields src

section Struct

variable {fields : List PbField} {src : List (PbValue (List UInt8))}

/-- The four bytes are enough for the prefix. -/
theorem length_structBytes_le (hlen : (wire fields src).length < 2 ^ 28) :
    (structBytes fields src).length ≤ (wire fields src).length + 4 := by
  have hvar : (Varint.encode (wire fields src).length).length ≤ 4 :=
    Varint.length_encode_le (by decide) (hlen.trans_le (by decide))
  rw [structBytes, List.length_append]
  omega

/-- Where there is memory the struct is serialized, at the front of the block. -/
theorem exists_serializeStruct (g : ℕ → UInt8) (htyped : List.Forall₂ Typed fields src)
    (htags : ∀ f ∈ fields, f.tag < 2 ^ 28) (hlen : (wire fields src).length < 2 ^ 28) :
    ∃ block, mblueSerializeStructWithLayout (some g) src fields = .ok ⟨some block, 0⟩ ∧
      structBytes fields src <+: block := by
  have hcount : Countable src := countable_of_wire htyped (hlen.trans (by decide))
  have hle := length_structBytes_le hlen
  have hsize := pbGetEncodedSize_eq htyped
  rw [flatten_structPieces htyped hcount htags, Nat.mod_eq_of_lt (hlen.trans (by decide))] at hsize
  have hmod : ((wire fields src).length + 4) % 2 ^ 32 = (wire fields src).length + 4 :=
    Nat.mod_eq_of_lt (by omega)
  obtain ⟨p, hmalloc, hp⟩ : ∃ block,
      mblueMalloc (some g) ((wire fields src).length + 4) = .ok (some block) ∧
        (wire fields src).length + 4 ≤ block.length := mblueMalloc_some g (by omega)
  rw [structBytes, List.length_append] at hle
  have hroom : HasRoom (pbOstreamFromBuffer p ((wire fields src).length + 4))
      ((Varint.encode (wire fields src).length).length + (wire fields src).length + 0) :=
    ⟨rfl, by show _ + 4 < 2 ^ 32; omega, by show 0 + _ ≤ _ + 4; omega,
      by show 0 + _ ≤ p.length; omega⟩
  obtain ⟨t, ht, -⟩ := hroom.pbEncodeSubmessage htyped hcount htags
  refine ⟨t.block, ?_, ?_⟩
  · rw [mblueSerializeStructWithLayout, hsize, orElse_ok]
    dsimp only
    rw [hmod, hmalloc, ok_bind]
    exact congrArg (orElse · _ _) ht
  · obtain ⟨-, -, hlt, -⟩ := length_mblueMalloc hmalloc
    obtain ⟨-, -, hwrote⟩ := wrote_of_pbEncodeSubmessage htyped htags rfl hlt ht
    rw [hwrote.block]
    exact ⟨_, rfl⟩

/-- **A struct is read back** from whatever starts with its bytes; that nothing may follow them is
the case in which a read past their end would be a fault. -/
theorem unserializeStruct_structBytes (hcons : Consecutive fields)
    (hfit : List.Forall₂ Fits fields src) (hlen : (wire fields src).length < 2 ^ 28)
    (tail : List UInt8) :
    ∃ dest, mblueUnserializeStructWithLayout (structBytes fields src ++ tail) fields =
        .ok (.ok, some dest) ∧
      StructDecoded (structBytes fields src ++ tail) tail fields src dest := by
  have hcount : Countable src := countable_of_wire (typed_of_fits hfit) (hlen.trans (by decide))
  have hle := length_structBytes_le hlen
  have hbound : (structBytes fields src).length ≤
      (pbIstreamFromBuffer (structBytes fields src ++ tail) (2 ^ 32 - 1)).bytesLeft := by
    show _ ≤ 2 ^ 32 - 1
    omega
  obtain ⟨dest, hdest, hdec⟩ := pbDecodeDelimited_reads hcons hfit hcount (hlen.trans (by decide))
    (Nat.zero_le _) (List.drop_zero : (structBytes fields src ++ tail).drop 0 = _) hbound rfl
  refine ⟨dest, ?_, hdec⟩
  rw [mblueUnserializeStructWithLayout]
  exact congrArg (orElse · _ _) hdest

end Struct

end Mblue
