import Mblue.Library.Varint
import Mblue.Schema.PbSchema

/-!
# What the decoder makes of well-formed bytes

A stream **reads** a list of bytes when they lie at its position and inside its bound
(`PbIstream.Reads`). Each decoding function has one lemma here: on a stream that reads the encoding
of a value it returns the value and the stream after it. None of them assumes anything about the
bytes that follow.

The main result is `pbDecodeDelimited_reads`, by induction on the fields of a layout with
consecutive tags: a delimited struct is decoded member by member, and the bundler of a data member
points at the data where it lies in the buffer.
-/

namespace Mblue

@[simp] theorem ok_bind {α β : Type} (a : α) (f : α → PbM β) :
    ((Except.ok a : PbM α) >>= f) = f a := rfl

@[simp] theorem error_bind {α β : Type} (e : PbStop) (f : α → PbM β) :
    ((Except.error e : PbM α) >>= f) = Except.error e := rfl

@[simp] theorem pure_eq_ok {α : Type} (a : α) : (pure a : PbM α) = Except.ok a := rfl

@[simp] theorem throw_eq_error {α : Type} (e : PbStop) : (throw e : PbM α) = Except.error e := rfl

/-! ### Streams that read given bytes -/

namespace PbIstream

/-- The bytes lie at the stream's position, inside its bound and inside the buffer. -/
structure Reads (s : PbIstream) (bytes : List UInt8) : Prop where
  inBuf : s.state ≤ s.buf.length
  bound : bytes.length ≤ s.bytesLeft
  isPrefix : bytes <+: s.buf.drop s.state

variable {s : PbIstream} {bytes bytes' : List UInt8}

@[simp] theorem advance_buf (s : PbIstream) (n : ℕ) : (s.advance n).buf = s.buf := rfl

@[simp] theorem advance_onStack (s : PbIstream) (n : ℕ) : (s.advance n).onStack = s.onStack := rfl

@[simp] theorem advance_state (s : PbIstream) (n : ℕ) : (s.advance n).state = s.state + n := rfl

@[simp] theorem advance_bytesLeft (s : PbIstream) (n : ℕ) :
    (s.advance n).bytesLeft = s.bytesLeft - n := rfl

@[simp] theorem advance_advance (s : PbIstream) (m n : ℕ) :
    (s.advance m).advance n = s.advance (m + n) := by
  simp only [advance, Nat.add_assoc, Nat.sub_sub]

theorem Reads.end_le (h : s.Reads bytes) : s.state + bytes.length ≤ s.buf.length := by
  have hle := h.isPrefix.length_le
  have := h.inBuf
  rw [List.length_drop] at hle
  omega

theorem Reads.left (h : s.Reads (bytes ++ bytes')) : s.Reads bytes := by
  refine ⟨h.inBuf, ?_, (List.prefix_append _ _).trans h.isPrefix⟩
  have := h.bound
  rw [List.length_append] at this
  omega

theorem Reads.right (h : s.Reads (bytes ++ bytes')) : (s.advance bytes.length).Reads bytes' := by
  have hend := h.end_le
  have hlen := h.bound
  obtain ⟨t, ht⟩ := h.isPrefix
  rw [List.length_append] at hlen hend
  refine ⟨by rw [advance_state, advance_buf]; omega, by rw [advance_bytesLeft]; omega, t, ?_⟩
  rw [advance_buf, advance_state, ← List.drop_drop, ← ht, List.append_assoc, List.drop_left]

theorem Reads.tail {b : UInt8} (h : s.Reads (b :: bytes)) : (s.advance 1).Reads bytes := by
  have hsplit : s.Reads ([b] ++ bytes) := h
  exact hsplit.right

/-- Narrowing the bound of a stream keeps what still fits. -/
theorem Reads.withBound (h : s.Reads bytes) {n : ℕ} (hn : bytes.length ≤ n) :
    PbIstream.Reads { s with bytesLeft := n } bytes :=
  ⟨h.inBuf, hn, h.isPrefix⟩

end PbIstream

open PbIstream

theorem pbRead_reads {s : PbIstream} {bytes : List UInt8} (h : s.Reads bytes) :
    pbRead s bytes.length = .ok (bytes, s.advance bytes.length) := by
  have hend := h.end_le
  have hlen := h.bound
  unfold pbRead
  rw [if_neg (by omega), if_neg (by omega), ← List.prefix_iff_eq_take.1 h.isPrefix]
  rfl

theorem pbReadbyte_reads {s : PbIstream} {b : UInt8} {bytes : List UInt8} (h : s.Reads (b :: bytes)) :
    pbReadbyte s = .ok (b.toNat, s.advance 1) := by
  have hlen := h.bound
  have hget : s.buf[s.state]? = some b := by
    obtain ⟨t, ht⟩ := h.isPrefix
    rw [← List.head?_drop, ← ht]
    rfl
  rw [List.length_cons] at hlen
  unfold pbReadbyte
  rw [if_neg (by omega), hget]
  rfl

/-! ### Varints -/

/-- The 64-bit loop adds the groups from `bitpos` on to what it has collected. -/
theorem pbDecodeVarintLoop_reads {fuel : ℕ} {s : PbIstream} {n result bitpos : ℕ}
    (h : s.Reads (Varint.encode n)) (hfuel : (Varint.encode n).length ≤ fuel)
    (hres : result < 2 ^ bitpos) (hbit : bitpos < 64) (hn : result + n * 2 ^ bitpos < 2 ^ 64) :
    pbDecodeVarintLoop fuel s result bitpos =
      .ok (result + n * 2 ^ bitpos, s.advance (Varint.encode n).length) := by
  induction fuel generalizing s n result bitpos with
  | zero => exact absurd (Varint.length_encode_pos n) (by omega)
  | succ fuel ih =>
    have hbit' : (bitpos + 7) % 256 = bitpos + 7 := by omega
    unfold pbDecodeVarintLoop
    rw [if_neg (by omega)]
    rcases Nat.lt_or_ge n 128 with hlt | hge
    · rw [Varint.encode_of_lt hlt] at h ⊢
      have hsmall : n * 2 ^ bitpos < 2 ^ 64 := by omega
      simp only [pure_eq_ok, ok_bind, pbReadbyte_reads h, Varint.toNat_last hlt, Varint.and_low,
        Nat.mod_eq_of_lt hlt, Varint.and_top_of_lt hlt, ↓reduceIte, Nat.shiftLeft_eq,
        Nat.mod_eq_of_lt hsmall]
      rw [Varint.or_mul hres]
      rfl
    · rw [Varint.encode_of_le hge] at h hfuel ⊢
      have hcol := Varint.collect n bitpos
      have hgroup : n % 128 * 2 ^ bitpos < 2 ^ 64 := by omega
      have hmore : n % 128 + 128 < 256 := by omega
      have hlow : (n % 128 + 128) % 128 = n % 128 := by omega
      have htop := Varint.and_top_of_le (x := n % 128 + 128) (by omega) hmore
      have hpos : 1 ≤ n / 128 := by omega
      have hnext : 2 ^ (bitpos + 7) ≤ n / 128 * 2 ^ (bitpos + 7) := Nat.le_mul_of_pos_left _ hpos
      have hlt64 : bitpos + 7 < 64 := (Nat.pow_lt_pow_iff_right (a := 2) (by decide)).1 (by omega)
      have hres' : result + n % 128 * 2 ^ bitpos < 2 ^ (bitpos + 7) := by
        have hle : n % 128 * 2 ^ bitpos ≤ 127 * 2 ^ bitpos := Nat.mul_le_mul_right _ (by omega)
        rw [pow_add]
        omega
      simp only [pure_eq_ok, ok_bind, pbReadbyte_reads h, Varint.toNat_more, Varint.and_low, hlow,
        htop, ↓reduceIte, Nat.shiftLeft_eq, Nat.mod_eq_of_lt hgroup, hbit']
      rw [List.length_cons] at hfuel
      rw [Varint.or_mul hres, ih h.tail (by omega) hres' hlt64 (by omega), Nat.add_assoc, hcol]
      rw [advance_advance, List.length_cons, Nat.add_comm 1]

theorem pbDecodeVarint_reads {s : PbIstream} {n : ℕ} (h : s.Reads (Varint.encode n))
    (hn : n < 2 ^ 64) :
    pbDecodeVarint s = .ok (n, s.advance (Varint.encode n).length) := by
  have hlen : (Varint.encode n).length ≤ 10 :=
    Varint.length_encode_le (by decide) (hn.trans (by decide))
  unfold pbDecodeVarint
  rw [pbDecodeVarintLoop_reads h (by omega) (by decide) (by decide) (by omega), pow_zero,
    Nat.mul_one, Nat.zero_add]

/-- The multibyte loop of the 32-bit decoder; it also reports the position and the last byte, which
its caller checks. -/
theorem pbDecodeVarint32Loop_reads {fuel : ℕ} {s : PbIstream} {n result bitpos : ℕ}
    (h : s.Reads (Varint.encode n)) (hfuel : (Varint.encode n).length ≤ fuel) (hpos : 1 ≤ n)
    (hres : result < 2 ^ bitpos) (hn : result + n * 2 ^ bitpos < 2 ^ 32) :
    ∃ pos byte, pbDecodeVarint32Loop fuel s result bitpos =
        .ok (result + n * 2 ^ bitpos, pos, byte, s.advance (Varint.encode n).length) ∧
      (pos = 35 → byte < 16) := by
  induction fuel generalizing s n result bitpos with
  | zero => exact absurd (Varint.length_encode_pos n) (by omega)
  | succ fuel ih =>
    have hbound : 2 ^ bitpos ≤ n * 2 ^ bitpos := Nat.le_mul_of_pos_left _ hpos
    have hbit : bitpos < 32 := (Nat.pow_lt_pow_iff_right (a := 2) (by decide)).1 (by omega)
    have hbit' : (bitpos + 7) % 256 = bitpos + 7 := by omega
    unfold pbDecodeVarint32Loop
    rcases Nat.lt_or_ge n 128 with hlt | hge
    · rw [Varint.encode_of_lt hlt] at h ⊢
      have hsmall : n * 2 ^ bitpos < 2 ^ 32 := by omega
      refine ⟨bitpos + 7, n, ?_, fun hpos35 ↦ ?_⟩
      · simp only [pure_eq_ok, ok_bind, pbReadbyte_reads h, Varint.toNat_last hlt, Varint.and_low,
          Nat.mod_eq_of_lt hlt, Varint.and_top_of_lt hlt, ↓reduceIte, Nat.shiftLeft_eq,
          Nat.mod_eq_of_lt hsmall, hbit', Nat.not_le.2 hbit, false_and]
        rw [Varint.or_mul hres]
        rfl
      · have h28 : bitpos = 28 := by omega
        subst h28
        omega
    · rw [Varint.encode_of_le hge] at h hfuel ⊢
      have hcol := Varint.collect n bitpos
      have hgroup : n % 128 * 2 ^ bitpos < 2 ^ 32 := by omega
      have hmore : n % 128 + 128 < 256 := by omega
      have hlow : (n % 128 + 128) % 128 = n % 128 := by omega
      have htop := Varint.and_top_of_le (x := n % 128 + 128) (by omega) hmore
      have hres' : result + n % 128 * 2 ^ bitpos < 2 ^ (bitpos + 7) := by
        have hle : n % 128 * 2 ^ bitpos ≤ 127 * 2 ^ bitpos := Nat.mul_le_mul_right _ (by omega)
        rw [pow_add]
        omega
      rw [List.length_cons] at hfuel
      obtain ⟨pos, byte, heq, hlast⟩ := ih h.tail (by omega) (by omega) hres' (by omega)
      refine ⟨pos, byte, ?_, hlast⟩
      simp only [pure_eq_ok, ok_bind, pbReadbyte_reads h, Varint.toNat_more, Varint.and_low, hlow,
        htop, ↓reduceIte, Nat.shiftLeft_eq, Nat.mod_eq_of_lt hgroup, hbit', Nat.not_le.2 hbit,
        false_and]
      rw [Varint.or_mul hres]
      rw [heq, Nat.add_assoc, hcol, advance_advance, List.length_cons, Nat.add_comm 1]

theorem and_0x70_of_lt {x : ℕ} (h : x < 16) : x &&& 0x70 = 0 := by
  have hall : ∀ i : Fin 16, i.val &&& 0x70 = 0 := by decide
  exact hall ⟨x, h⟩

theorem pbDecodeVarint32Eof_reads {s : PbIstream} {n : ℕ} (h : s.Reads (Varint.encode n))
    (hn : n < 2 ^ 32) :
    pbDecodeVarint32Eof s = .ok (some (n, s.advance (Varint.encode n).length)) := by
  have hleft : s.bytesLeft ≠ 0 := by
    have := h.bound
    have := Varint.length_encode_pos n
    omega
  unfold pbDecodeVarint32Eof
  rw [if_neg hleft]
  rcases Nat.lt_or_ge n 128 with hlt | hge
  · rw [Varint.encode_of_lt hlt] at h ⊢
    simp only [pure_eq_ok, ok_bind, pbReadbyte_reads h, Varint.toNat_last hlt,
      Varint.and_top_of_lt hlt, ↓reduceIte]
    rfl
  · rw [Varint.encode_of_le hge] at h ⊢
    have hmore : n % 128 + 128 < 256 := by omega
    have hlow : (n % 128 + 128) % 128 = n % 128 := by omega
    have htop := Varint.and_top_of_le (x := n % 128 + 128) (by omega) hmore
    have hrest := h.tail
    have hlow7 : n % 128 < 2 ^ 7 := by omega
    obtain ⟨pos, byte, heq, hlast⟩ := pbDecodeVarint32Loop_reads hrest hrest.bound (by omega) hlow7
      (by omega)
    have hok : ¬(pos = 35 ∧ byte &&& 0x70 ≠ 0) := fun h ↦ h.2 (and_0x70_of_lt (hlast h.1))
    simp only [pure_eq_ok, ok_bind, pbReadbyte_reads h, Varint.toNat_more, Varint.and_low, hlow,
      htop, ↓reduceIte, heq, if_neg hok]
    rw [advance_advance, List.length_cons, Nat.add_comm 1,
      show n % 128 + n / 128 * 2 ^ 7 = n by omega]

theorem pbDecodeVarint32_reads {s : PbIstream} {n : ℕ} (h : s.Reads (Varint.encode n))
    (hn : n < 2 ^ 32) :
    pbDecodeVarint32 s = .ok (n, s.advance (Varint.encode n).length) := by
  unfold pbDecodeVarint32
  rw [pbDecodeVarint32Eof_reads h hn]
  rfl

/-! ### The bytes of a struct -/

/-- The wire type of a field. -/
def PbLtype.wireType : PbLtype → ℕ
  | .varint => pbWtVarint
  | .bytes | .string => pbWtString

/-- A string member's characters up to the terminator. -/
def charsOf (field : PbField) (bytes : List UInt8) : List UInt8 :=
  (bytes.take field.dataSize).takeWhile (· ≠ 0)

/-- A member without its tag. -/
def wireValue (field : PbField) : PbValue (List UInt8) → List UInt8
  | .int32 v => Varint.encode (v.signExtend 64).toNat
  | .chars bytes => Varint.encode (charsOf field bytes).length ++ charsOf field bytes
  | .callback data => Varint.encode data.length ++ data

/-- A member with its tag. -/
def wireField (field : PbField) (value : PbValue (List UInt8)) : List UInt8 :=
  Varint.encode (field.tag <<< 3 ||| field.ltype.wireType) ++ wireValue field value

/-- The members of a struct in order. -/
def wire : List PbField → List (PbValue (List UInt8)) → List UInt8
  | field :: fields, value :: values => wireField field value ++ wire fields values
  | _, _ => []

/-- A value of the field's C type: an `int32_t`, a terminated string, or any data behind a
callback. -/
inductive Fits : PbField → PbValue (List UInt8) → Prop
  | int32 (tag : ℕ) (v : BitVec 32) : Fits (int32Field tag) (.int32 v)
  | chars (tag size : ℕ) (bytes : List UInt8) (hsize : size < 2 ^ 32)
      (hlen : (charsOf ⟨tag, .string, .static, size⟩ bytes).length < size) :
      Fits ⟨tag, .string, .static, size⟩ (.chars bytes)
  | bytes (tag : ℕ) (data : List UInt8) : Fits (bytesField tag) (.callback data)
  | string (tag : ℕ) (data : List UInt8) : Fits (stringField tag) (.callback data)

/-- The data of a struct has lengths that a `size_t` can count. -/
def Countable (values : List (PbValue (List UInt8))) : Prop :=
  ∀ data, .callback data ∈ values → data.length < 2 ^ 32

/-- What a member is decoded to. The bundler of a data member points at the data in the buffer;
`rest` is what follows it there. -/
def MemberDecoded (buf rest : List UInt8) (field : PbField) :
    PbValue (List UInt8) → PbValue MblueByteBundler → Prop
  | .int32 v, d => d = .int32 v
  | .chars bytes, d => ∃ n, d = .chars (charsOf field bytes ++ List.replicate (n + 1) 0)
  | .callback data, d =>
    ∃ off, d = .callback ⟨data.length, .block off⟩ ∧ buf.drop off = data ++ rest

/-- What a struct is decoded to, when `rest` follows it in the buffer. -/
def StructDecoded (buf rest : List UInt8) :
    List PbField → List (PbValue (List UInt8)) → List (PbValue MblueByteBundler) → Prop
  | [], [], dest => dest = []
  | field :: fields, value :: values, dest => ∃ d ds, dest = d :: ds ∧
      MemberDecoded buf (wire fields values ++ rest) field value d ∧
      StructDecoded buf rest fields values ds
  | _, _, _ => False

theorem StructDecoded.length_eq {buf rest : List UInt8} {fields : List PbField}
    {values : List (PbValue (List UInt8))} {dest : List (PbValue MblueByteBundler)}
    (h : StructDecoded buf rest fields values dest) : dest.length = fields.length := by
  induction fields generalizing values dest with
  | nil =>
    cases values with
    | nil => exact congrArg List.length (show dest = [] from h)
    | cons _ _ => exact h.elim
  | cons field fields ih =>
    cases values with
    | nil => exact h.elim
    | cons value values =>
      obtain ⟨d, ds, rfl, -, hds⟩ := h
      rw [List.length_cons, List.length_cons, ih hds]

/-! ### Tags, substreams and members -/

theorem tag_bounds (tag : ℕ) {wt : ℕ} (hwt : wt < 8) :
    tag <<< 3 ||| wt = tag * 8 + wt := by
  rw [Nat.shiftLeft_eq, Nat.mul_comm, Nat.two_pow_add_eq_or_of_lt (i := 3) hwt]

theorem PbLtype.wireType_lt (t : PbLtype) : t.wireType < 8 := by cases t <;> decide

/-- A key is a tag and a wire type. -/
theorem pbDecodeTag_key {s : PbIstream} {tag wt : ℕ} (h : s.Reads (Varint.encode (tag <<< 3 ||| wt)))
    (hpos : 1 ≤ tag) (hlt : tag < 2 ^ 29) (hwt : wt < 8) :
    pbDecodeTag s = .ok (some (tag, wt, s.advance (Varint.encode (tag <<< 3 ||| wt)).length)) := by
  have heq := tag_bounds tag hwt
  have hshift : (tag * 8 + wt) >>> 3 = tag := by
    rw [Nat.shiftRight_eq_div_pow]
    omega
  have hmask : (tag * 8 + wt) &&& 7 = wt := by
    rw [show 7 = 2 ^ 3 - 1 from rfl, Nat.and_two_pow_sub_one_eq_mod]
    omega
  rw [heq] at h ⊢
  unfold pbDecodeTag
  rw [pbDecodeVarint32Eof_reads h (by omega)]
  simp only [ok_bind, pure_eq_ok, hshift, hmask]
  rw [if_neg (by omega)]

theorem pbDecodeTag_reads {s : PbIstream} {field : PbField}
    (h : s.Reads (Varint.encode (field.tag <<< 3 ||| field.ltype.wireType)))
    (hpos : 1 ≤ field.tag) (hlt : field.tag < 2 ^ 28) :
    pbDecodeTag s = .ok (some (field.tag, field.ltype.wireType,
      s.advance (Varint.encode (field.tag <<< 3 ||| field.ltype.wireType)).length)) :=
  pbDecodeTag_key h hpos (by omega) field.ltype.wireType_lt

/-- Cutting a delimited piece off: the substream reads the piece, the stream goes on after it. -/
theorem pbMakeStringSubstream_reads {s : PbIstream} {bytes : List UInt8}
    (h : s.Reads (Varint.encode bytes.length ++ bytes)) (hlen : bytes.length < 2 ^ 32) :
    pbMakeStringSubstream s =
      .ok ({ s.advance (Varint.encode bytes.length).length with bytesLeft := bytes.length },
        { s.advance (Varint.encode bytes.length).length with
          bytesLeft := (s.advance (Varint.encode bytes.length).length).bytesLeft - bytes.length }) := by
  have hbound := h.right.bound
  unfold pbMakeStringSubstream
  rw [pbDecodeVarint32_reads h.left hlen]
  simp only [ok_bind, pure_eq_ok]
  rw [if_neg (by omega)]

/-- Closing a substream that has been read to its end. -/
theorem pbCloseStringSubstream_of_bytesLeft {s sub : PbIstream} (h : sub.bytesLeft = 0) :
    pbCloseStringSubstream s sub = .ok { s with state := sub.state } := by
  unfold pbCloseStringSubstream
  rw [if_pos h]
  rfl

theorem drainInputBuffer_reads {fuel : ℕ} {s : PbIstream} {bytes : List UInt8} (h : s.Reads bytes)
    (hfuel : bytes.length ≤ fuel) :
    drainInputBuffer fuel s bytes.length = .ok (s.advance bytes.length) := by
  induction fuel generalizing s bytes with
  | zero =>
    unfold drainInputBuffer
    rw [pbRead_reads h]
    rfl
  | succ fuel ih =>
    unfold drainInputBuffer
    split
    · next hlong =>
      have hsplit : bytes = bytes.take 16 ++ bytes.drop 16 := (List.take_append_drop 16 bytes).symm
      have hcut : (bytes.take 16).length = 16 := by rw [List.length_take]; omega
      have hrest : (bytes.drop 16).length = bytes.length - 16 := List.length_drop
      rw [hsplit] at h
      have hhead := pbRead_reads h.left
      have htail := ih h.right (by omega)
      rw [hcut] at hhead htail
      rw [hrest] at htail
      rw [hhead]
      simp only [ok_bind]
      rw [htail, advance_advance]
      congr 2
      omega
    · rw [pbRead_reads h]
      rfl

/-- The data callback bundles exactly the bytes of its substream and drains it. -/
theorem mbluePbGetBytesPointer_reads {s : PbIstream} {bytes : List UInt8} (h : s.Reads bytes)
    (hleft : s.bytesLeft = bytes.length) :
    mbluePbGetBytesPointer s = .ok (⟨bytes.length, s.pointer⟩, s.advance bytes.length) := by
  unfold mbluePbGetBytesPointer
  rw [hleft, drainInputBuffer_reads h le_rfl]
  rfl

/-- A data member. -/
theorem decodeCallbackField_reads {s : PbIstream} {data : List UInt8}
    (h : s.Reads (Varint.encode data.length ++ data)) (hlen : data.length < 2 ^ 32)
    (hstack : s.onStack = false) :
    decodeCallbackField mbluePbGetBytesPointer s pbWtString =
      .ok (.callback ⟨data.length, .block (s.state + (Varint.encode data.length).length)⟩,
        s.advance (Varint.encode data.length ++ data).length) := by
  have hsub := h.right.withBound (le_refl data.length)
  have hdrained : ∀ fuel, decodeCallbackLoop mbluePbGetBytesPointer fuel
      { s.advance (Varint.encode data.length).length with bytesLeft := data.length } =
        .ok (⟨data.length, .block (s.state + (Varint.encode data.length).length)⟩,
          PbIstream.advance { s.advance (Varint.encode data.length).length with
            bytesLeft := data.length } data.length) := by
    have hptr : PbIstream.pointer { s.advance (Varint.encode data.length).length with
        bytesLeft := data.length } = .block (s.state + (Varint.encode data.length).length) := by
      unfold PbIstream.pointer
      simp only [advance_onStack, hstack, advance_state, Bool.false_eq_true, ↓reduceIte]
    have hget := mbluePbGetBytesPointer_reads hsub rfl
    rw [hptr] at hget
    intro fuel
    cases fuel with
    | zero => exact hget
    | succ fuel =>
      unfold decodeCallbackLoop
      rw [hget]
      simp only [ok_bind, advance_bytesLeft, Nat.sub_self, ↓reduceIte, pure_eq_ok]
  unfold decodeCallbackField
  rw [if_pos rfl, pbMakeStringSubstream_reads h hlen]
  simp only [ok_bind, pure_eq_ok]
  rw [hdrained]
  simp only [ok_bind]
  rw [pbCloseStringSubstream_of_bytesLeft (Nat.sub_self _)]
  simp only [ok_bind, PbIstream.advance, List.length_append, Nat.add_assoc, Nat.sub_sub]

theorem length_encode_lt {n : ℕ} (h : n < 2 ^ 64) : (Varint.encode n).length ≤ 10 :=
  Varint.length_encode_le (by decide) (h.trans (by decide))

/-- An `int32` member: 64 bits are read and cut down to the 32 they were extended from. -/
theorem pbDecVarint_reads {s : PbIstream} {v : BitVec 32}
    (h : s.Reads (Varint.encode (v.signExtend 64).toNat)) :
    pbDecVarint s = .ok (.int32 v, s.advance (Varint.encode (v.signExtend 64).toNat).length) := by
  have hlow : BitVec.ofNat 32 (v.signExtend 64).toNat = v := by
    rw [BitVec.ofNat_toNat]
    ext i hi
    rw [BitVec.getElem_setWidth, BitVec.getLsbD_signExtend, BitVec.getLsbD_eq_getElem hi,
      if_pos hi, decide_eq_true (hi.trans (by decide)), Bool.true_and]
  unfold pbDecVarint
  rw [pbDecodeVarint_reads h (BitVec.isLt _)]
  simp only [ok_bind, pure_eq_ok, hlow]

/-- A string member: the characters are stored with a terminator, over a zeroed array. -/
theorem pbDecString_reads {s : PbIstream} {field : PbField} {chars : List UInt8}
    (h : s.Reads (Varint.encode chars.length ++ chars)) (hsize : field.dataSize < 2 ^ 32)
    (hlen : chars.length < field.dataSize) :
    pbDecString s field (.chars (List.replicate field.dataSize 0)) =
      .ok (.chars (chars ++ List.replicate (field.dataSize - chars.length - 1 + 1) 0),
        s.advance (Varint.encode chars.length ++ chars).length) := by
  have hmod : (chars.length + 1) % 2 ^ 32 = chars.length + 1 := Nat.mod_eq_of_lt (by omega)
  unfold pbDecString
  rw [pbDecodeVarint32_reads h.left (by omega)]
  simp only [ok_bind, pure_eq_ok, hmod]
  rw [if_neg (by omega), if_neg (by omega), pbRead_reads h.right]
  simp only [ok_bind, List.drop_replicate, advance_advance, List.length_append,
    List.replicate_succ, Nat.sub_sub]

/-- **One member** is decoded to what was encoded. -/
theorem decodeField_reads {s : PbIstream} {field : PbField} {value : PbValue (List UInt8)}
    (hfit : Fits field value) (hcount : Countable [value]) (h : s.Reads (wireValue field value))
    (hstack : s.onStack = false) {rest : List UInt8} (hrest : s.buf.drop s.state = wireValue field value ++ rest) :
    ∃ d, decodeField mbluePbGetBytesPointer s field.ltype.wireType field (pbFieldDefault field) =
        .ok (d, s.advance (wireValue field value).length) ∧
      MemberDecoded s.buf rest field value d := by
  have hdata : ∀ data : List UInt8,
      s.buf.drop s.state = Varint.encode data.length ++ data ++ rest →
      s.buf.drop (s.state + (Varint.encode data.length).length) = data ++ rest := by
    intro data heq
    rw [← List.drop_drop, heq, List.append_assoc, List.drop_left]
  cases hfit with
  | int32 tag v => exact ⟨.int32 v, pbDecVarint_reads h, rfl⟩
  | chars tag size bytes hsize hlen => exact ⟨_, pbDecString_reads h hsize hlen, _, rfl⟩
  | bytes tag data | string tag data =>
    have hlen := hcount data (List.mem_singleton.2 rfl)
    exact ⟨_, decodeCallbackField_reads h hlen hstack, _, rfl, hdata data hrest⟩

/-! ### Structs -/

/-- The tags of a layout count up from one; there are few of them. -/
def Consecutive (fields : List PbField) : Prop :=
  fields.length < 16 ∧ fields.map (·.tag) = List.range' 1 fields.length

theorem Consecutive.tag_eq {fields : List PbField} (h : Consecutive fields) {i : ℕ}
    (hi : i < fields.length) : fields[i].tag = i + 1 := by
  have hget := congrArg (fun l : List ℕ ↦ l[i]?) h.2
  simp only [List.getElem?_map, List.getElem?_eq_getElem hi, Option.map_some,
    List.getElem?_range' hi, Option.some.injEq] at hget
  omega

/-- The field with a tag is found at its position. -/
theorem Consecutive.findIdx_eq {fields : List PbField} (h : Consecutive fields) {i : ℕ}
    (hi : i < fields.length) : fields.findIdx (·.tag == i + 1) = i := by
  rw [List.findIdx_eq hi]
  refine ⟨by rw [h.tag_eq hi, beq_self_eq_true], fun j hj ↦ ?_⟩
  rw [h.tag_eq (hj.trans hi), beq_eq_false_iff_ne]
  omega

/-- The bit mask of the first fields, with the next one set. -/
theorem seen_succ (k : ℕ) : (2 ^ k - 1) ||| 1 <<< k = 2 ^ (k + 1) - 1 := by
  have hpos : 0 < 2 ^ k := Nat.two_pow_pos k
  rw [Nat.shiftLeft_eq, Nat.one_mul, ← Nat.mul_one (2 ^ k), Nat.or_comm,
    ← Nat.two_pow_add_eq_or_of_lt (by omega), pow_succ]
  omega

theorem length_wireField_pos (field : PbField) (value : PbValue (List UInt8)) :
    0 < (wireField field value).length := by
  have := Varint.length_encode_pos (field.tag <<< 3 ||| field.ltype.wireType)
  rw [wireField, List.length_append]
  omega

/-- **The loop over a struct's members**, by induction on the fields still to come: the members of
the fields before them are done, and their bits are set. -/
theorem pbDecodeLoop_reads {fields done todo : List PbField} (hsplit : fields = done ++ todo)
    (hcons : Consecutive fields) {values : List (PbValue (List UInt8))}
    (hfit : List.Forall₂ Fits todo values) (hcount : Countable values) {s : PbIstream}
    {dest : List (PbValue MblueByteBundler)} (hdest : dest.length = done.length)
    (h : s.Reads (wire todo values)) (hleft : s.bytesLeft = (wire todo values).length)
    (hstack : s.onStack = false) {rest : List UInt8}
    (hrest : s.buf.drop s.state = wire todo values ++ rest) {fuel : ℕ} (hfuel : s.bytesLeft ≤ fuel) :
    ∃ ds, pbDecodeLoop mbluePbGetBytesPointer fields fuel s (dest ++ todo.map pbFieldDefault)
          (2 ^ done.length - 1) =
        .ok (dest ++ ds, 2 ^ fields.length - 1, s.advance (wire todo values).length) ∧
      StructDecoded s.buf rest todo values ds := by
  induction hfit generalizing done s dest fuel with
  | nil =>
    refine ⟨[], ?_, rfl⟩
    have hzero : s.bytesLeft = 0 := hleft
    have hsame : s.advance (wire [] []).length = s := by
      unfold PbIstream.advance wire
      rw [List.length_nil, Nat.add_zero, Nat.sub_zero]
    rw [hsplit, List.append_nil, hsame]
    cases fuel with
    | zero => rfl
    | succ fuel =>
      unfold pbDecodeLoop
      rw [if_pos hzero]
      rfl
  | @cons field value todo values hf hfs ih =>
    have hi : done.length < fields.length := by
      rw [hsplit, List.length_append, List.length_cons]
      omega
    have hfield : fields[done.length] = field := by
      simp only [hsplit, List.getElem_append_right (le_refl done.length), Nat.sub_self,
        List.getElem_cons_zero]
    have htag : field.tag = done.length + 1 := hfield ▸ hcons.tag_eq hi
    have hpos := length_wireField_pos field value
    rw [wire, List.length_append] at hleft
    obtain ⟨fuel, rfl⟩ : ∃ k, fuel = k + 1 := ⟨fuel - 1, by omega⟩
    -- the tag, then the member
    rw [wire] at h hrest
    have hmember : s.Reads (Varint.encode (field.tag <<< 3 ||| field.ltype.wireType) ++
      wireValue field value) := h.left
    have hnext := hmember.right
    have hat : (s.advance (Varint.encode (field.tag <<< 3 ||| field.ltype.wireType)).length).buf.drop
        (s.advance (Varint.encode (field.tag <<< 3 ||| field.ltype.wireType)).length).state =
          wireValue field value ++ (wire todo values ++ rest) := by
      rw [advance_buf, advance_state, ← List.drop_drop, hrest, wireField, List.append_assoc,
        List.append_assoc, List.drop_left]
    have hcount₁ : Countable [value] := fun data hmem ↦
      hcount data (List.mem_singleton.1 hmem ▸ List.mem_cons_self)
    have hcount₂ : Countable values := fun data hmem ↦ hcount data (List.mem_cons_of_mem _ hmem)
    obtain ⟨d, hd, hdec⟩ := decodeField_reads hf hcount₁ hnext hstack hat
    rw [advance_advance, ← List.length_append] at hd
    -- the members after it
    have hrest' : (s.advance (wireField field value).length).buf.drop
        (s.advance (wireField field value).length).state = wire todo values ++ rest := by
      rw [advance_buf, advance_state, ← List.drop_drop, hrest, List.append_assoc, List.drop_left]
    have hleft' : (s.advance (wireField field value).length).bytesLeft =
        (wire todo values).length := by
      rw [advance_bytesLeft]
      omega
    have hsplit' : fields = (done ++ [field]) ++ todo := by
      rw [hsplit, List.append_assoc]
      rfl
    have hdest' : (dest ++ [d]).length = (done ++ [field]).length := by
      rw [List.length_append, List.length_append, hdest]
      rfl
    have hfuel' : (s.advance (wireField field value).length).bytesLeft ≤ fuel := by
      rw [advance_bytesLeft]
      omega
    obtain ⟨ds, hds, hdecs⟩ :=
      ih hsplit' hcount₂ hdest' h.right hleft' hstack hrest' hfuel'
    refine ⟨d :: ds, ?_, d, ds, rfl, hdec, hdecs⟩
    have hold : (dest ++ (field :: todo).map pbFieldDefault)[done.length]? =
        some (pbFieldDefault field) := by
      rw [← hdest, List.getElem?_append_right le_rfl, Nat.sub_self]
      rfl
    have hset : (dest ++ (field :: todo).map pbFieldDefault).set done.length d =
        dest ++ [d] ++ todo.map pbFieldDefault := by
      rw [← hdest, List.set_append_right _ _ le_rfl, Nat.sub_self, List.append_assoc]
      rfl
    have htagread := pbDecodeTag_reads hmember.left (by omega) (by have := hcons.1; omega)
    unfold pbDecodeLoop
    rw [if_neg (by omega), htagread]
    simp only [ok_bind]
    rw [htag, hcons.findIdx_eq hi, List.getElem?_eq_getElem hi, hfield, hold, ← htag]
    simp only
    rw [hd]
    simp only [ok_bind]
    rw [hset, seen_succ, ← wireField]
    rw [List.length_append, List.length_singleton] at hds
    rw [hds, advance_advance, ← List.length_append, List.append_assoc]
    rfl

/-- **A delimited struct** is decoded to what was encoded, and the stream goes on after it. -/
theorem pbDecodeDelimited_reads {fields : List PbField} (hcons : Consecutive fields)
    {values : List (PbValue (List UInt8))} (hfit : List.Forall₂ Fits fields values)
    (hcount : Countable values) {s : PbIstream} (hlen : (wire fields values).length < 2 ^ 32) {rest : List UInt8}
    (hinBuf : s.state ≤ s.buf.length)
    (hrest : s.buf.drop s.state =
      Varint.encode (wire fields values).length ++ wire fields values ++ rest)
    (hbound : (Varint.encode (wire fields values).length ++ wire fields values).length ≤ s.bytesLeft)
    (hstack : s.onStack = false) :
    ∃ dest, pbDecodeDelimited mbluePbGetBytesPointer s fields =
        .ok (dest, s.advance
          (Varint.encode (wire fields values).length ++ wire fields values).length) ∧
      StructDecoded s.buf rest fields values dest := by
  have h : s.Reads (Varint.encode (wire fields values).length ++ wire fields values) :=
    ⟨hinBuf, hbound, hrest ▸ List.prefix_append _ _⟩
  have hsub := h.right.withBound (le_refl (wire fields values).length)
  have hat : s.buf.drop (s.state + (Varint.encode (wire fields values).length).length) =
      wire fields values ++ rest := by
    rw [← List.drop_drop, hrest, List.append_assoc, List.drop_left]
  have hsplit : fields = [] ++ fields := rfl
  have hdest : ([] : List (PbValue MblueByteBundler)).length = ([] : List PbField).length := rfl
  obtain ⟨ds, hds, hdec⟩ := pbDecodeLoop_reads hsplit hcons hfit hcount hdest hsub rfl hstack hat
    (le_refl _)
  refine ⟨ds, ?_, hdec⟩
  simp only [List.nil_append, List.length_nil, pow_zero, Nat.sub_self] at hds
  unfold pbDecodeDelimited pbDecode
  rw [pbMakeStringSubstream_reads h hlen]
  simp only [ok_bind, pure_eq_ok]
  rw [hds]
  simp only [ok_bind, ne_eq, not_true_eq_false, ↓reduceIte]
  rw [pbCloseStringSubstream_of_bytesLeft (Nat.sub_self _)]
  simp only [ok_bind, PbIstream.advance, List.length_append, Nat.add_assoc, Nat.sub_sub]

end Mblue
