import Mblue.Common.SmartData
import Mblue.Schema.Nanopb

/-!
# Data layouts

`pb_schema.c`: the nine data layouts of a request, the serializer a client calls and the parsers
that turn a request's bytes into a call of the service's function.

A serialized request is two delimited messages in one block, the header (method name and layout
index) and the layout's struct. A parser decodes the struct and calls the handler with its members
in order; a `bytes` member is passed as a pointer into the block and a length, except by
`dl113_parser`, which passes the pointer alone, as a C string.
-/

namespace Mblue

/-- `MAX_IPC_METHOD_NAME_LENGTH`. -/
def maxIpcMethodNameLength : ℕ := 31

/-! ### Field lists -/

/-- `PB_FIELD(tag, INT32, REQUIRED, STATIC, …)`. -/
def int32Field (tag : ℕ) : PbField := ⟨tag, .varint, .static, 4⟩

/-- `PB_FIELD(tag, BYTES, REQUIRED, CALLBACK, …)`; the member is a `pb_callback_t`. -/
def bytesField (tag : ℕ) : PbField := ⟨tag, .bytes, .callback, 8⟩

/-- `PB_FIELD(tag, STRING, REQUIRED, CALLBACK, …)`. -/
def stringField (tag : ℕ) : PbField := ⟨tag, .string, .callback, 8⟩

/-- `dl_rpc_header_fields`. -/
def dlRpcHeaderFields : List PbField := [⟨1, .string, .static, 32⟩, int32Field 2]

/-- `dl_array_fields`. -/
def dlArrayFields : List PbField := [bytesField 1]

/-- `dl_1_fields`. -/
def dl1Fields : List PbField := [int32Field 1]

/-- `dl_111_fields`. -/
def dl111Fields : List PbField := [int32Field 1, int32Field 2, int32Field 3]

/-- `dl_1111_fields`. -/
def dl1111Fields : List PbField := [int32Field 1, int32Field 2, int32Field 3, int32Field 4]

/-- `dl_12_fields`. -/
def dl12Fields : List PbField := [int32Field 1, bytesField 2]

/-- `dl_112_fields`. -/
def dl112Fields : List PbField := [int32Field 1, int32Field 2, bytesField 3]

/-- `dl_113_fields`. -/
def dl113Fields : List PbField := [int32Field 1, int32Field 2, stringField 3]

/-- `dl_1112_fields`. -/
def dl1112Fields : List PbField := [int32Field 1, int32Field 2, int32Field 3, bytesField 4]

/-! ### Callbacks -/

/-- `drain_input_buffer`: reads of at most sixteen bytes. The recursion is bounded by `count`. -/
def drainInputBuffer : ℕ → PbIstream → ℕ → PbM PbIstream
  | 0, s, count => do
    let (_, s) ← pbRead s count
    pure s
  | fuel + 1, s, count =>
    if 16 < count then do
      let (_, s) ← pbRead s 16
      drainInputBuffer fuel s (count - 16)
    else do
      let (_, s) ← pbRead s count
      pure s

/-- `__mblue_pb_get_bytes_pointer`: the bundler points at the data where it lies, and the data is
drained from the stream. -/
def mbluePbGetBytesPointer : PbDecodeCallback := fun s ↦ do
  let bb : MblueByteBundler := ⟨s.bytesLeft, s.pointer⟩
  let s ← drainInputBuffer s.bytesLeft s s.bytesLeft
  pure (bb, s)

/-- `__mblue_pb_write_bytes`. -/
def mbluePbWriteBytes : PbEncodeCallback := fun s field bytes ↦ do
  let s ← pbEncodeTagForField s field
  pbEncodeString s bytes

/-! ### Parsers -/

/-- An argument a handler is called with. -/
inductive HandlerArg
  | int (v : BitVec 32)
  | pointer (p : BytePtr)
  | size (n : ℕ)
  deriving DecidableEq, Repr

/-- What a parser does: it returns a word itself, or it calls the handler. -/
inductive ParserResult
  | ret (w : Word)
  | call (args : List HandlerArg)
  deriving DecidableEq, Repr

/-- A `mblue_pb_parser_func_t`, up to the call of the handler. -/
abbrev PbParserFunc := PbIstream → PbM ParserResult

/-- The arguments for the members of a decoded struct, in order. -/
def handlerArgs (data : MblueByteBundler → List HandlerArg) :
    List (PbValue MblueByteBundler) → List HandlerArg
  | [] => []
  | .int32 v :: dest => .int v :: handlerArgs data dest
  | .callback b :: dest => data b ++ handlerArgs data dest
  | .chars _ :: dest => handlerArgs data dest

/-- The data member as `uint8_t *` and `size_t`. -/
def bytesAndLen (b : MblueByteBundler) : List HandlerArg := [.pointer b.byte, .size b.len]

/-- The data member as `char *`. -/
def charPointer (b : MblueByteBundler) : List HandlerArg := [.pointer b.byte]

/-- The common body of the parsers: decode the struct, call the handler with its members, and answer
`MBLUE_ERR_PB_DECODE` when it does not decode. -/
def layoutParser (fields : List PbField) (data : MblueByteBundler → List HandlerArg) :
    PbParserFunc := fun s ↦
  match pbDecodeDelimited mbluePbGetBytesPointer s fields with
  | .ok (dest, _) => pure (.call (handlerArgs data dest))
  | .error .failed => pure (.ret (makeInteger MblueErrcode.errPbDecode.toInt))
  | .error .fault => throw .fault

/-- `simple_request_parser`. -/
def simpleRequestParser : PbParserFunc := fun _ ↦ pure (.call [])

/-- `dl1_parser`. -/
def dl1Parser : PbParserFunc := layoutParser dl1Fields bytesAndLen

/-- `dl_array_parser`. -/
def dlArrayParser : PbParserFunc := layoutParser dlArrayFields bytesAndLen

/-- `dl12_parser`. -/
def dl12Parser : PbParserFunc := layoutParser dl12Fields bytesAndLen

/-- `dl111_parser`. -/
def dl111Parser : PbParserFunc := layoutParser dl111Fields bytesAndLen

/-- `dl112_parser`. -/
def dl112Parser : PbParserFunc := layoutParser dl112Fields bytesAndLen

/-- `dl113_parser`. -/
def dl113Parser : PbParserFunc := layoutParser dl113Fields charPointer

/-- `dl1111_parser`. -/
def dl1111Parser : PbParserFunc := layoutParser dl1111Fields bytesAndLen

/-- `dl1112_parser`. -/
def dl1112Parser : PbParserFunc := layoutParser dl1112Fields bytesAndLen

/-! ### The layout table -/

/-- `PB_TYPE_INDEX`. -/
inductive PbTypeIndex
  | pb0
  | pb1
  | pb2
  | pb12
  | pb112
  | pb113
  | pb111
  | pb1111
  | pb1112
  deriving DecidableEq, Repr

/-- The enumerator's value. -/
def PbTypeIndex.toNat : PbTypeIndex → ℕ
  | pb0 => 0
  | pb1 => 1
  | pb2 => 2
  | pb12 => 3
  | pb112 => 4
  | pb113 => 5
  | pb111 => 6
  | pb1111 => 7
  | pb1112 => 8

/-- `PB_MAX`. -/
def pbMax : ℕ := 9

/-- `struct pb_layout_parser`. -/
structure PbLayoutParser where
  /-- The struct's fields, `NULL` for a request without data. -/
  field : Option (List PbField)
  parser : PbParserFunc

/-- `mblue_pb_data_layout_array`. -/
def mbluePbDataLayoutArray : List PbLayoutParser :=
  [⟨none, simpleRequestParser⟩,
   ⟨some dl1Fields, dl1Parser⟩,
   ⟨some dlArrayFields, dlArrayParser⟩,
   ⟨some dl12Fields, dl12Parser⟩,
   ⟨some dl112Fields, dl112Parser⟩,
   ⟨some dl113Fields, dl113Parser⟩,
   ⟨some dl111Fields, dl111Parser⟩,
   ⟨some dl1111Fields, dl1111Parser⟩,
   ⟨some dl1112Fields, dl1112Parser⟩]

/-- `mblue_pb_data_layout_get`: an unchecked array access. -/
def mbluePbDataLayoutGet (index : ℕ) : PbM (Option (List PbField)) :=
  match mbluePbDataLayoutArray[index]? with
  | some l => pure l.field
  | none => throw .fault

/-- `mblue_pb_data_parser_get`: an unchecked array access. -/
def mbluePbDataParserGet (index : ℕ) : PbM PbParserFunc :=
  match mbluePbDataLayoutArray[index]? with
  | some l => pure l.parser
  | none => throw .fault

/-! ### The serializer -/

/-- `MBLUE_ALIGN` of a 32-bit size. -/
def mblueAlign (a : ℕ) : ℕ := (a + 15) % 2 ^ 32 / 16 * 16

/-- `mblue_malloc`: `none` when the heap has no block, otherwise a block whose first `size` bytes
are zeroed; what the rounding adds keeps the bytes `memory` it had. -/
def mblueMalloc (memory : Option (ℕ → UInt8)) (size : ℕ) : PbM (Option (List UInt8)) :=
  match memory with
  | none => pure none
  | some g =>
    if mblueAlign size < size then throw .fault
    else pure (some (List.replicate size 0 ++ (List.range (mblueAlign size - size)).map g))

/-- The bytes of `header.method_name` after `strncpy`; the last one stays what it was. -/
def methodName (method : List UInt8) (junk : UInt8) : List UInt8 :=
  (method ++ List.replicate maxIpcMethodNameLength 0).take maxIpcMethodNameLength ++ [junk]

/-- The struct `dl_rpc_header` that `mblue_serialize_ipc` fills. -/
def rpcHeader (method : List UInt8) (junk : UInt8) (index : ℕ) : List (PbValue (List UInt8)) :=
  [.chars (methodName method junk), .int32 (BitVec.ofNat 32 index)]

/-- What `mblue_serialize_ipc` leaves: its result and how often it freed the block. -/
structure Serialized where
  buffer : Option (List UInt8)
  frees : ℕ
  deriving DecidableEq, Repr

/-- `if (!call) …`: the branch for a codec function that returned `false` and the code after it. -/
def orElse {α β : Type} (call : PbM α) (no : PbM β) (yes : α → PbM β) : PbM β :=
  match call with
  | .ok a => yes a
  | .error .failed => no
  | .error .fault => throw .fault

/-- `mblue_serialize_ipc`. `memory` is what the allocation returns, `junk` the byte of the stack
variable `header` that `strncpy` does not reach. -/
def mblueSerializeIpc (memory : Option (ℕ → UInt8)) (junk : UInt8) (method : List UInt8)
    (index : ℕ) (src : List (PbValue (List UInt8))) : PbM Serialized := do
  let dataSchema ← mbluePbDataLayoutGet index
  let header := rpcHeader method junk index
  orElse (pbGetEncodedSize mbluePbWriteBytes dlRpcHeaderFields header) (pure ⟨none, 0⟩)
    fun headerSize ↦
  orElse (match dataSchema with
      | some fields => pbGetEncodedSize mbluePbWriteBytes fields src
      | none => pure 0) (pure ⟨none, 0⟩)
    fun dataSize ↦ do
  let bufferSize := (headerSize + 4 + (if dataSize = 0 then 0 else dataSize + 4)) % 2 ^ 32
  match ← mblueMalloc memory bufferSize with
  | none => pure ⟨none, 0⟩
  | some buffer =>
    orElse (pbEncodeSubmessage mbluePbWriteBytes (pbOstreamFromBuffer buffer bufferSize)
        dlRpcHeaderFields header) (pure ⟨none, 1⟩)
      fun stream ↦
    -- the body's error branch frees the block, and so does the common exit
    orElse (match dataSchema with
        | some fields => pbEncodeSubmessage mbluePbWriteBytes stream fields src
        | none => pure stream) (pure ⟨none, 2⟩)
      fun stream ↦ pure ⟨some stream.block, 0⟩

/-! ### Reading a request -/

/-- How far `default_ipc_handler` gets with a request's payload: its header does not decode, the
service has no handler for it, or a parser runs. -/
inductive RequestOutcome
  | headerFailed
  | noHandler
  | parsed (r : ParserResult)
  deriving DecidableEq, Repr

/-- The part of `default_ipc_handler` that reads the payload, up to the call of the handler.
`payload` is the block of a `PB_PAYLOAD`; for anything else the index stays `PB_MAX`. -/
def readRequest (payload : Option (List UInt8)) (ipcFunc : Word) : PbM RequestOutcome :=
  match payload with
  | none =>
    if ipcFunc = 0 then pure .noHandler
    else do
      let parser ← mbluePbDataParserGet pbMax
      let r ← parser (pbIstreamFromBuffer [] 0)
      pure (.parsed r)
  | some block =>
    orElse (pbDecodeDelimited mbluePbGetBytesPointer (pbIstreamFromBuffer block (2 ^ 32 - 1))
        dlRpcHeaderFields) (pure .headerFailed)
      fun (header, stream) ↦
    match header with
    | [_, .int32 layoutIndex] =>
      if ipcFunc = 0 then pure .noHandler
      else do
        let parser ← mbluePbDataParserGet (layoutIndex.toNat % 2 ^ 16)
        let r ← parser stream
        pure (.parsed r)
    | _ => throw .fault

end Mblue
