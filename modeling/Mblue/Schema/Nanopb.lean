import Mathlib

/-!
# The protocol buffer codec

The part of `pb_encode.c` and `pb_decode.c` that the layouts of `pb_schema.c` use: varints, static
`int32` and string fields, and callback fields, all of them required. Sizes are the 32-bit `size_t`
of the target and wrap around where the code adds to them; a varint is collected in 64 bits.

A C function that returns `false` is `PbStop.failed`. Reading or writing outside a block, which the
C code does not check, is `PbStop.fault`: the language gives it no meaning, and neither does the
model. So a result that is neither tells that every access was inside its block.

Loops of the source that consume the stream recurse on a bound: the number of bytes left, or the ten
bytes of the local buffer.
-/

namespace Mblue

/-- Why a codec function has no result: it returned `false`, or it left its block. -/
inductive PbStop
  | failed
  | fault
  deriving DecidableEq, Repr

/-- The outcome of a codec function. -/
abbrev PbM := Except PbStop

/-- `pb_wire_type_t`. -/
def pbWtVarint : ℕ := 0
@[inherit_doc pbWtVarint] def pbWt64bit : ℕ := 1
@[inherit_doc pbWtVarint] def pbWtString : ℕ := 2
@[inherit_doc pbWtVarint] def pbWt32bit : ℕ := 5

/-- The `PB_LTYPE` of a field, as far as the layouts use them. -/
inductive PbLtype
  | varint
  | bytes
  | string
  deriving DecidableEq, Repr

/-- The `PB_ATYPE` of a field, as far as the layouts use them. -/
inductive PbAtype
  | static
  | callback
  deriving DecidableEq, Repr

/-- `pb_field_t`; every field of the layouts is `PB_HTYPE_REQUIRED`. -/
structure PbField where
  tag : ℕ
  ltype : PbLtype
  atype : PbAtype
  dataSize : ℕ
  deriving DecidableEq, Repr

/-- A pointer into the memory a stream reads: the block itself or a local buffer of the decoder. -/
inductive BytePtr
  | null
  | block (off : ℕ)
  | stack (off : ℕ)
  deriving DecidableEq, Repr

/-- `struct mblue_byte_bundler` as a decoded field leaves it. -/
structure MblueByteBundler where
  len : ℕ
  byte : BytePtr
  deriving DecidableEq, Repr

/-- A member of a layout's struct. The data of a callback field is a `β`: the bytes on the way in,
a bundler on the way out. -/
inductive PbValue (β : Type)
  | int32 (v : BitVec 32)
  | chars (bytes : List UInt8)
  | callback (b : β)
  deriving DecidableEq, Repr

/-! ### Input streams -/

/-- `pb_istream_t` over a buffer; `state` is the position in it. -/
structure PbIstream where
  buf : List UInt8
  onStack : Bool
  state : ℕ
  bytesLeft : ℕ
  deriving DecidableEq, Repr

namespace PbIstream

/-- The stream after `n` of its bytes. -/
def advance (s : PbIstream) (n : ℕ) : PbIstream :=
  { s with state := s.state + n, bytesLeft := s.bytesLeft - n }

/-- The pointer `stream->state`. -/
def pointer (s : PbIstream) : BytePtr := if s.onStack then .stack s.state else .block s.state

end PbIstream

/-- `pb_istream_from_buffer`. -/
def pbIstreamFromBuffer (buf : List UInt8) (bufsize : ℕ) : PbIstream := ⟨buf, false, 0, bufsize⟩

/-- `pb_read` into a buffer. -/
def pbRead (s : PbIstream) (count : ℕ) : PbM (List UInt8 × PbIstream) :=
  if s.bytesLeft < count then throw .failed
  else if s.buf.length < s.state + count then throw .fault
  else pure ((s.buf.drop s.state).take count, s.advance count)

/-- `pb_read` into `NULL`: `buf_read` moves the position and reads nothing. -/
def pbReadNull (s : PbIstream) (count : ℕ) : PbM PbIstream :=
  if s.bytesLeft < count then throw .failed else pure (s.advance count)

/-- `pb_readbyte`. -/
def pbReadbyte (s : PbIstream) : PbM (ℕ × PbIstream) :=
  if s.bytesLeft = 0 then throw .failed
  else match s.buf[s.state]? with
    | none => throw .fault
    | some b => pure (b.toNat, s.advance 1)

/-- The multibyte loop of `pb_decode_varint32_eof`: the bits collected, the position of the next
group and the last byte read. -/
def pbDecodeVarint32Loop : ℕ → PbIstream → ℕ → ℕ → PbM (ℕ × ℕ × ℕ × PbIstream)
  | 0, _, _, _ => throw .failed
  | fuel + 1, s, result, bitpos => do
    let (byte, s) ← pbReadbyte s
    let signExtension := if bitpos < 63 then 0xFF else 0x01
    if 32 ≤ bitpos ∧ byte &&& 0x7F ≠ 0 ∧ (result >>> 31 = 0 ∨ byte ≠ signExtension) then
      throw .failed
    let result := if 32 ≤ bitpos then result else result ||| (byte &&& 0x7F) <<< bitpos % 2 ^ 32
    let bitpos := (bitpos + 7) % 256
    if byte &&& 0x80 = 0 then pure (result, bitpos, byte, s)
    else pbDecodeVarint32Loop fuel s result bitpos

/-- `pb_decode_varint32_eof`: `none` is a stream that has ended, `*eof` set. -/
def pbDecodeVarint32Eof (s : PbIstream) : PbM (Option (ℕ × PbIstream)) :=
  if s.bytesLeft = 0 then pure none
  else do
    let (byte, s) ← pbReadbyte s
    if byte &&& 0x80 = 0 then pure (some (byte, s))
    else
      let (result, bitpos, byte, s) ← pbDecodeVarint32Loop s.bytesLeft s (byte &&& 0x7F) 7
      if bitpos = 35 ∧ byte &&& 0x70 ≠ 0 then throw .failed
      pure (some (result, s))

/-- `pb_decode_varint32`. -/
def pbDecodeVarint32 (s : PbIstream) : PbM (ℕ × PbIstream) := do
  match ← pbDecodeVarint32Eof s with
  | none => throw .failed
  | some r => pure r

/-- The loop of `pb_decode_varint`. -/
def pbDecodeVarintLoop : ℕ → PbIstream → ℕ → ℕ → PbM (ℕ × PbIstream)
  | 0, _, _, _ => throw .failed
  | fuel + 1, s, result, bitpos => do
    if 64 ≤ bitpos then throw .failed
    let (byte, s) ← pbReadbyte s
    let result := result ||| (byte &&& 0x7F) <<< bitpos % 2 ^ 64
    let bitpos := (bitpos + 7) % 256
    if byte &&& 0x80 = 0 then pure (result, s)
    else pbDecodeVarintLoop fuel s result bitpos

/-- `pb_decode_varint`, which stops after at most ten bytes. -/
def pbDecodeVarint (s : PbIstream) : PbM (ℕ × PbIstream) := pbDecodeVarintLoop 11 s 0 0

/-- `pb_decode_tag`: `none` is the end of the message, tag and wire type otherwise. -/
def pbDecodeTag (s : PbIstream) : PbM (Option (ℕ × ℕ × PbIstream)) := do
  match ← pbDecodeVarint32Eof s with
  | none => pure none
  | some (temp, s) => if temp = 0 then pure none else pure (some (temp >>> 3, temp &&& 7, s))

/-- `pb_skip_varint`. -/
def pbSkipVarint : ℕ → PbIstream → PbM PbIstream
  | 0, _ => throw .failed
  | fuel + 1, s => do
    let (byte, s) ← pbReadbyte s
    if byte &&& 0x80 = 0 then pure s else pbSkipVarint fuel s

/-- `pb_skip_field`. -/
def pbSkipField (s : PbIstream) (wireType : ℕ) : PbM PbIstream :=
  if wireType = pbWtVarint then pbSkipVarint (s.bytesLeft + 1) s
  else if wireType = pbWt64bit then pbReadNull s 8
  else if wireType = pbWtString then do
    let (length, s) ← pbDecodeVarint32 s
    pbReadNull s length
  else if wireType = pbWt32bit then pbReadNull s 4
  else throw .failed

/-- The `PB_WT_VARINT` loop of `read_raw_value`: at most `max_size` bytes. -/
def readRawVarint : ℕ → PbIstream → PbM (List UInt8 × PbIstream)
  | 0, _ => throw .failed
  | fuel + 1, s => do
    let (byte, s) ← pbReadbyte s
    if byte &&& 0x80 = 0 then pure ([UInt8.ofNat byte], s)
    else
      let (rest, s) ← readRawVarint fuel s
      pure (UInt8.ofNat byte :: rest, s)

/-- `read_raw_value`, into the ten bytes of its caller's buffer. -/
def readRawValue (s : PbIstream) (wireType : ℕ) : PbM (List UInt8 × PbIstream) :=
  if wireType = pbWtVarint then readRawVarint 10 s
  else if wireType = pbWt64bit then pbRead s 8
  else if wireType = pbWt32bit then pbRead s 4
  else throw .failed

/-- `pb_make_string_substream`: the substream and the stream it was cut from. -/
def pbMakeStringSubstream (s : PbIstream) : PbM (PbIstream × PbIstream) := do
  let (size, s) ← pbDecodeVarint32 s
  if s.bytesLeft < size then throw .failed
  pure ({ s with bytesLeft := size }, { s with bytesLeft := s.bytesLeft - size })

/-- `pb_close_string_substream`. -/
def pbCloseStringSubstream (s sub : PbIstream) : PbM PbIstream := do
  let sub ← if sub.bytesLeft = 0 then pure sub else pbReadNull sub sub.bytesLeft
  pure { s with state := sub.state }

/-! ### Decoding fields -/

/-- A decode callback: it gets the substream and leaves a bundler. -/
abbrev PbDecodeCallback := PbIstream → PbM (MblueByteBundler × PbIstream)

/-- `pb_dec_varint` of a field of `sizeof(int32_t)`. -/
def pbDecVarint (s : PbIstream) : PbM (PbValue MblueByteBundler × PbIstream) := do
  let (value, s) ← pbDecodeVarint s
  pure (.int32 (BitVec.ofNat 32 value), s)

/-- `pb_dec_string` of a static field. -/
def pbDecString (s : PbIstream) (field : PbField) (old : PbValue MblueByteBundler) :
    PbM (PbValue MblueByteBundler × PbIstream) := do
  let (size, s) ← pbDecodeVarint32 s
  let allocSize := (size + 1) % 2 ^ 32
  if allocSize < size then throw .failed
  if field.dataSize < allocSize then throw .failed
  let (bytes, s) ← pbRead s size
  match old with
  | .chars dest => pure (.chars (bytes ++ 0 :: dest.drop (size + 1)), s)
  | _ => throw .fault

/-- `decode_static_field`. -/
def decodeStaticField (s : PbIstream) (field : PbField) (old : PbValue MblueByteBundler) :
    PbM (PbValue MblueByteBundler × PbIstream) :=
  match field.ltype with
  | .varint => pbDecVarint s
  | .string => pbDecString s field old
  | .bytes => throw .failed

/-- The loop `do … while (substream.bytes_left)` of `decode_callback_field`. -/
def decodeCallbackLoop (decode : PbDecodeCallback) :
    ℕ → PbIstream → PbM (MblueByteBundler × PbIstream)
  | 0, s => decode s
  | fuel + 1, s => do
    let (b, s) ← decode s
    if s.bytesLeft = 0 then pure (b, s) else decodeCallbackLoop decode fuel s

/-- `decode_callback_field`. A scalar is copied to the stack first, so that its callback is handed
a stream over a local buffer. -/
def decodeCallbackField (decode : PbDecodeCallback) (s : PbIstream) (wireType : ℕ) :
    PbM (PbValue MblueByteBundler × PbIstream) :=
  if wireType = pbWtString then do
    let (sub, s) ← pbMakeStringSubstream s
    let (b, sub) ← decodeCallbackLoop decode sub.bytesLeft sub
    let s ← pbCloseStringSubstream s sub
    pure (.callback b, s)
  else do
    let (buffer, s) ← readRawValue s wireType
    let (b, _) ← decode ⟨buffer, true, 0, buffer.length⟩
    pure (.callback b, s)

/-- `decode_field`. -/
def decodeField (decode : PbDecodeCallback) (s : PbIstream) (wireType : ℕ) (field : PbField)
    (old : PbValue MblueByteBundler) : PbM (PbValue MblueByteBundler × PbIstream) :=
  match field.atype with
  | .static => decodeStaticField s field old
  | .callback => decodeCallbackField decode s wireType

/-- The loop of `pb_decode_noinit`. `seen` is the bit mask `fields_seen`; all fields are required,
so a field's index in its layout is its `required_field_index`. -/
def pbDecodeLoop (decode : PbDecodeCallback) (fields : List PbField) :
    ℕ → PbIstream → List (PbValue MblueByteBundler) → ℕ →
      PbM (List (PbValue MblueByteBundler) × ℕ × PbIstream)
  | 0, s, dest, seen => pure (dest, seen, s)
  | fuel + 1, s, dest, seen =>
    if s.bytesLeft = 0 then pure (dest, seen, s)
    else do
      match ← pbDecodeTag s with
      | none => pure (dest, seen, s)
      | some (tag, wireType, s) =>
        let i := fields.findIdx (·.tag == tag)
        match fields[i]?, dest[i]? with
        | some field, some old =>
          let (value, s) ← decodeField decode s wireType field old
          pbDecodeLoop decode fields fuel s (dest.set i value) (seen ||| 1 <<< i)
        | _, _ =>
          let s ← pbSkipField s wireType
          pbDecodeLoop decode fields fuel s dest seen

/-- `pb_message_set_to_defaults`: static members are zeroed, callbacks are left alone. -/
def pbFieldDefault (field : PbField) : PbValue MblueByteBundler :=
  match field.atype, field.ltype with
  | .callback, _ => .callback ⟨0, .null⟩
  | .static, .varint => .int32 0
  | .static, _ => .chars (List.replicate field.dataSize 0)

/-- `pb_decode`, at the end of which all required fields must have been seen. -/
def pbDecode (decode : PbDecodeCallback) (s : PbIstream) (fields : List PbField) :
    PbM (List (PbValue MblueByteBundler) × PbIstream) := do
  let (dest, seen, s) ← pbDecodeLoop decode fields s.bytesLeft s (fields.map pbFieldDefault) 0
  if seen ≠ 2 ^ fields.length - 1 then throw .failed
  pure (dest, s)

/-- `pb_decode_delimited`. -/
def pbDecodeDelimited (decode : PbDecodeCallback) (s : PbIstream) (fields : List PbField) :
    PbM (List (PbValue MblueByteBundler) × PbIstream) := do
  let (sub, s) ← pbMakeStringSubstream s
  let (dest, sub) ← pbDecode decode sub fields
  let s ← pbCloseStringSubstream s sub
  pure (dest, s)

/-! ### Output streams -/

/-- `pb_ostream_t`; a sizing stream has no callback and only counts. -/
structure PbOstream where
  block : List UInt8
  sizing : Bool
  state : ℕ
  maxSize : ℕ
  bytesWritten : ℕ
  deriving DecidableEq, Repr

/-- `PB_OSTREAM_SIZING`. -/
def pbOstreamSizing : PbOstream := ⟨[], true, 0, 0, 0⟩

/-- `pb_ostream_from_buffer`. -/
def pbOstreamFromBuffer (block : List UInt8) (bufsize : ℕ) : PbOstream :=
  ⟨block, false, 0, bufsize, 0⟩

/-- `buf_write`: the bytes land in the block, or the write leaves it. -/
def bufWrite (s : PbOstream) (bytes : List UInt8) : PbM PbOstream :=
  if s.block.length < s.state + bytes.length then throw .fault
  else pure { s with
    block := s.block.take s.state ++ bytes ++ s.block.drop (s.state + bytes.length)
    state := s.state + bytes.length }

/-- `pb_write`. -/
def pbWrite (s : PbOstream) (bytes : List UInt8) : PbM PbOstream := do
  let written := (s.bytesWritten + bytes.length) % 2 ^ 32
  if s.sizing then pure { s with bytesWritten := written }
  else if s.maxSize < written then throw .failed
  else
    let s ← bufWrite s bytes
    pure { s with bytesWritten := written }

/-- The loop of `pb_encode_varint` over its ten-byte buffer. -/
def varintGroups : ℕ → ℕ → List UInt8
  | 0, _ => []
  | fuel + 1, value =>
    if value = 0 then []
    else UInt8.ofNat (value &&& 0x7F ||| 0x80) :: varintGroups fuel (value >>> 7)

/-- The bytes `pb_encode_varint` writes; the last statement of the loop's branch clears the top bit
of the last byte. -/
def varintBytes (value : ℕ) : List UInt8 :=
  if value ≤ 0x7F then [UInt8.ofNat value]
  else
    let buffer := varintGroups 10 value
    buffer.modify (buffer.length - 1) (· &&& 0x7F)

/-- `pb_encode_varint`. -/
def pbEncodeVarint (s : PbOstream) (value : ℕ) : PbM PbOstream := pbWrite s (varintBytes value)

/-- `pb_encode_tag_for_field`. -/
def pbEncodeTagForField (s : PbOstream) (field : PbField) : PbM PbOstream :=
  let wiretype := match field.ltype with
    | .varint => pbWtVarint
    | .bytes | .string => pbWtString
  pbEncodeVarint s (field.tag <<< 3 ||| wiretype)

/-- `pb_encode_string`; the length is a `size_t`. -/
def pbEncodeString (s : PbOstream) (bytes : List UInt8) : PbM PbOstream := do
  let s ← pbEncodeVarint s (bytes.length % 2 ^ 32)
  pbWrite s bytes

/-- An encode callback. -/
abbrev PbEncodeCallback := PbOstream → PbField → List UInt8 → PbM PbOstream

/-- `encode_basic_field` of a required static field: `pb_enc_varint` or `pb_enc_string`, which
counts the characters before the terminator. -/
def encodeBasicField (s : PbOstream) (field : PbField) (value : PbValue (List UInt8)) :
    PbM PbOstream := do
  let s ← pbEncodeTagForField s field
  match field.ltype, value with
  | .varint, .int32 v => pbEncodeVarint s (v.signExtend 64).toNat
  | .string, .chars bytes => pbEncodeString s ((bytes.take field.dataSize).takeWhile (· ≠ 0))
  | _, _ => throw .fault

/-- `encode_field`. -/
def encodeField (encode : PbEncodeCallback) (s : PbOstream) (field : PbField)
    (value : PbValue (List UInt8)) : PbM PbOstream :=
  match field.atype, value with
  | .static, _ => encodeBasicField s field value
  | .callback, .callback b => encode s field b
  | .callback, _ => throw .fault

/-- `pb_encode`. -/
def pbEncode (encode : PbEncodeCallback) :
    PbOstream → List PbField → List (PbValue (List UInt8)) → PbM PbOstream
  | s, [], _ => pure s
  | _, _ :: _, [] => throw .fault
  | s, field :: fields, value :: values => do
    let s ← encodeField encode s field value
    pbEncode encode s fields values

/-- `pb_get_encoded_size`. -/
def pbGetEncodedSize (encode : PbEncodeCallback) (fields : List PbField)
    (src : List (PbValue (List UInt8))) : PbM ℕ := do
  let s ← pbEncode encode pbOstreamSizing fields src
  pure s.bytesWritten

/-- `pb_encode_submessage`, which is `pb_encode_delimited`. -/
def pbEncodeSubmessage (encode : PbEncodeCallback) (s : PbOstream) (fields : List PbField)
    (src : List (PbValue (List UInt8))) : PbM PbOstream := do
  let sizestream ← pbEncode encode pbOstreamSizing fields src
  let size := sizestream.bytesWritten
  let s ← pbEncodeVarint s size
  if s.sizing then pure { s with bytesWritten := (s.bytesWritten + size) % 2 ^ 32 }
  else if s.maxSize < (s.bytesWritten + size) % 2 ^ 32 then throw .failed
  else
    let sub ← pbEncode encode { s with maxSize := size, bytesWritten := 0 } fields src
    if sub.bytesWritten ≠ size then throw .failed
    pure { sub with maxSize := s.maxSize, bytesWritten := (s.bytesWritten + sub.bytesWritten) % 2 ^ 32 }

end Mblue
