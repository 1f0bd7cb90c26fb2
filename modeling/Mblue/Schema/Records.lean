import Mblue.Schema.Containment

/-!
# Messages whose records come in any order

`pbDecodeDelimited_reads` is about the message that this repository's own encoder writes. A sender
with another encoder or another version of a layout may write the members in another order, write
one more than once, and add fields that the layout does not have. `pbDecodeDelimited_records` says
what the decoder makes of every such message: it needs one record for each member, the last one
counts, and what it does not know is skipped, whatever its wire type is.

The proof is an induction on the records. `Folded` says what they have done to the members and to
`fields_seen`; it is stated for any members and any bits before them.
-/

namespace Mblue

open PbIstream

/-- A record of a message: a member of the layout, or a field that the layout does not have. -/
inductive WireRecord
  | member (field : PbField) (value : PbValue (List UInt8))
  | unknown (tag wireType : ℕ) (payload : List UInt8)

/-- What follows the key of a field with a wire type. -/
inductive Payload : ℕ → List UInt8 → Prop
  | varint (n : ℕ) : Payload pbWtVarint (Varint.encode n)
  | fixed64 (bytes : List UInt8) (hlen : bytes.length = 8) : Payload pbWt64bit bytes
  | string (data : List UInt8) (hlen : data.length < 2 ^ 32) : Payload pbWtString (delimited data)
  | fixed32 (bytes : List UInt8) (hlen : bytes.length = 4) : Payload pbWt32bit bytes

namespace WireRecord

/-- The bytes of a record. -/
def bytes : WireRecord → List UInt8
  | member field value => wireField field value
  | unknown tag wireType payload => Varint.encode (tag <<< 3 ||| wireType) ++ payload

/-- A record that a sender may write to a reader with these fields. -/
inductive WellFormed (fields : List PbField) : WireRecord → Prop
  | member {field : PbField} {value : PbValue (List UInt8)} (hmem : field ∈ fields)
      (hfit : Fits field value) (hcount : Countable [value]) :
      WellFormed fields (member field value)
  | unknown {tag wireType : ℕ} {payload : List UInt8} (hnone : ∀ f ∈ fields, f.tag ≠ tag)
      (hpos : 1 ≤ tag) (hlt : tag < 2 ^ 29) (hpayload : Payload wireType payload) :
      WellFormed fields (unknown tag wireType payload)

/-- The value a record has for a tag. -/
def value? (tag : ℕ) : WireRecord → Option (PbValue (List UInt8))
  | member field value => if field.tag = tag then some value else none
  | unknown _ _ _ => none

theorem length_bytes_pos (r : WireRecord) : 0 < r.bytes.length := by
  cases r with
  | member field value => exact length_wireField_pos field value
  | unknown tag wireType payload =>
    have := Varint.length_encode_pos (tag <<< 3 ||| wireType)
    rw [bytes, List.length_append]
    omega

end WireRecord

/-- The bytes of a message. -/
def messageBytes (rs : List WireRecord) : List UInt8 := rs.flatMap WireRecord.bytes

/-- The last value that was sent for a tag. -/
def lastSent (tag : ℕ) : List WireRecord → Option (PbValue (List UInt8))
  | [] => none
  | r :: rs => (lastSent tag rs).or (r.value? tag)

/-- What a member holds that was decoded from a value: the number, the characters as a C string, or
a bundler of the data where it lies in the buffer. -/
def Received (buf : List UInt8) (field : PbField) :
    PbValue (List UInt8) → PbValue MblueByteBundler → Prop
  | .int32 v, d => d = .int32 v
  | .chars bytes, d => ∃ dest, d = .chars dest ∧ dest.length = field.dataSize ∧
      charsOf field bytes ++ [0] <+: dest
  | .callback data, d =>
    ∃ off, d = .callback ⟨data.length, .block off⟩ ∧ (buf.drop off).take data.length = data

/-! ### One record -/

section Record

variable {s : PbIstream}

theorem pbSkipVarint_reads {n fuel : ℕ} (h : s.Reads (Varint.encode n))
    (hfuel : (Varint.encode n).length ≤ fuel) :
    pbSkipVarint fuel s = .ok (s.advance (Varint.encode n).length) := by
  induction fuel generalizing s n with
  | zero => exact absurd (Varint.length_encode_pos n) (by omega)
  | succ fuel ih =>
    unfold pbSkipVarint
    rcases Nat.lt_or_ge n 128 with hlt | hge
    · rw [Varint.encode_of_lt hlt] at h ⊢
      simp only [pbReadbyte_reads h, ok_bind, pure_eq_ok, Varint.toNat_last hlt,
        Varint.and_top_of_lt hlt, ↓reduceIte]
      rfl
    · rw [Varint.encode_of_le hge] at h hfuel ⊢
      have htop := Varint.and_top_of_le (x := n % 128 + 128) (by omega) (by omega)
      rw [List.length_cons] at hfuel
      simp only [pbReadbyte_reads h, ok_bind, Varint.toNat_more, htop, ↓reduceIte]
      rw [ih h.tail (by omega), advance_advance, List.length_cons, Nat.add_comm 1]

theorem pbReadNull_reads {bytes : List UInt8} (h : s.Reads bytes) :
    pbReadNull s bytes.length = .ok (s.advance bytes.length) :=
  if_neg (Nat.not_lt.2 h.bound)

/-- **An unknown field is skipped**, whatever its wire type is. -/
theorem pbSkipField_reads {wireType : ℕ} {payload : List UInt8}
    (hpayload : Payload wireType payload) (h : s.Reads payload) :
    pbSkipField s wireType = .ok (s.advance payload.length) := by
  cases hpayload with
  | varint n => exact pbSkipVarint_reads h (h.bound.trans (Nat.le_succ _))
  | fixed64 bytes hlen =>
    have hskip := pbReadNull_reads h
    rw [hlen] at hskip ⊢
    exact hskip
  | string data hlen =>
    show (do
      let r ← pbDecodeVarint32 s
      pbReadNull r.2 r.1) = _
    rw [pbDecodeVarint32_reads h.left hlen, ok_bind, pbReadNull_reads h.right, advance_advance,
      delimited, List.length_append]
  | fixed32 bytes hlen =>
    have hskip := pbReadNull_reads h
    rw [hlen] at hskip ⊢
    exact hskip

/-- A string member over whatever the array held. -/
theorem pbDecString_over {field : PbField} {chars dest : List UInt8}
    (h : s.Reads (Varint.encode chars.length ++ chars)) (hsize : field.dataSize < 2 ^ 32)
    (hlen : chars.length < field.dataSize) :
    pbDecString s field (.chars dest) = .ok (.chars (chars ++ 0 :: dest.drop (chars.length + 1)),
      s.advance (Varint.encode chars.length ++ chars).length) := by
  have hmod : (chars.length + 1) % 2 ^ 32 = chars.length + 1 := Nat.mod_eq_of_lt (by omega)
  unfold pbDecString
  rw [pbDecodeVarint32_reads h.left (by omega)]
  simp only [ok_bind, pure_eq_ok, hmod]
  rw [if_neg (by omega), if_neg (by omega), pbRead_reads h.right]
  simp only [ok_bind, advance_advance, List.length_append]

/-- **A known field is decoded** into its member, whatever the member held. -/
theorem decodeField_over {field : PbField} {value : PbValue (List UInt8)} (hfit : Fits field value)
    (hcount : Countable [value]) (h : s.Reads (wireValue field value)) (hstack : s.onStack = false)
    {old : PbValue MblueByteBundler} (hold : Shaped field old) :
    ∃ d, decodeField mbluePbGetBytesPointer s field.ltype.wireType field old =
        .ok (d, s.advance (wireValue field value).length) ∧
      Received s.buf field value d ∧ Shaped field d := by
  have hdata : ∀ data : List UInt8, s.Reads (Varint.encode data.length ++ data) →
      (s.buf.drop (s.state + (Varint.encode data.length).length)).take data.length = data := by
    intro data hdata
    exact (List.prefix_iff_eq_take.1 hdata.right.isPrefix).symm
  cases hfit with
  | int32 tag v => exact ⟨.int32 v, pbDecVarint_reads h, rfl, .int32 v rfl rfl⟩
  | chars tag size bytes hsize hlen =>
    cases hold with
    | int32 v hatype hltype => cases hltype
    | callback b hatype => cases hatype
    | chars dest hatype hltype hdest =>
      have hlength : (charsOf ⟨tag, .string, .static, size⟩ bytes ++
          0 :: dest.drop ((charsOf ⟨tag, .string, .static, size⟩ bytes).length + 1)).length =
            size := by
        rw [List.length_append, List.length_cons, List.length_drop, hdest]
        dsimp only
        omega
      refine ⟨_, pbDecString_over h hsize hlen, ⟨_, rfl, hlength, ?_⟩,
        .chars _ rfl hltype hlength⟩
      exact (List.prefix_append_right_inj _).2 ⟨_, rfl⟩
  | bytes tag data | string tag data =>
    have hlen := hcount data (List.mem_singleton.2 rfl)
    exact ⟨_, decodeCallbackField_reads h hlen hstack, ⟨_, rfl, hdata data h⟩, .callback _ rfl⟩

end Record

/-! ### All records -/

section Message

variable {buf : List UInt8} {fields : List PbField} {rs : List WireRecord}
  {dest dest' : List (PbValue MblueByteBundler)} {seen seen' : ℕ}

/-- What the records have made of the members and of the mask; a layout's tags count up from one. -/
structure Folded (buf : List UInt8) (fields : List PbField) (rs : List WireRecord)
    (dest : List (PbValue MblueByteBundler)) (seen : ℕ) (dest' : List (PbValue MblueByteBundler))
    (seen' : ℕ) : Prop where
  shaped : List.Forall₂ Shaped fields dest'
  bits : ∀ i, seen'.testBit i = (seen.testBit i || (lastSent (i + 1) rs).isSome)
  received : ∀ i field v, fields[i]? = some field → lastSent (i + 1) rs = some v →
    ∃ d, dest'[i]? = some d ∧ Received buf field v d
  kept : ∀ i, lastSent (i + 1) rs = none → dest'[i]? = dest[i]?

theorem folded_nil (h : List.Forall₂ Shaped fields dest) :
    Folded buf fields [] dest seen dest seen := by
  refine ⟨h, fun _ ↦ (Bool.or_false _).symm, fun i field v _ hsent ↦ ?_, fun _ _ ↦ rfl⟩
  cases hsent

/-- An unknown field changes nothing. -/
theorem Folded.unknown {tag wireType : ℕ} {payload : List UInt8}
    (h : Folded buf fields rs dest seen dest' seen') :
    Folded buf fields (.unknown tag wireType payload :: rs) dest seen dest' seen' := by
  have hsent (i : ℕ) : lastSent (i + 1) (.unknown tag wireType payload :: rs) =
      lastSent (i + 1) rs := Option.or_none
  refine ⟨h.shaped, fun i ↦ ?_, fun i field v hfield hv ↦ ?_, fun i hnone ↦ ?_⟩
  · rw [hsent]
    exact h.bits i
  · rw [hsent] at hv
    exact h.received i field v hfield hv
  · rw [hsent] at hnone
    exact h.kept i hnone

/-- A member's record counts where no later one does. -/
theorem Folded.member {j : ℕ} {field : PbField} {value : PbValue (List UInt8)}
    {d : PbValue MblueByteBundler} (hj : fields[j]? = some field) (htag : field.tag = j + 1)
    (hlen : j < dest.length) (hd : Received buf field value d)
    (h : Folded buf fields rs (dest.set j d) (seen ||| 1 <<< j) dest' seen') :
    Folded buf fields (.member field value :: rs) dest seen dest' seen' := by
  have hself : lastSent (j + 1) (.member field value :: rs) =
      (lastSent (j + 1) rs).or (some value) := by
    rw [lastSent, WireRecord.value?, if_pos htag]
  have hother {i : ℕ} (hne : j ≠ i) : lastSent (i + 1) (.member field value :: rs) =
      lastSent (i + 1) rs := by
    rw [lastSent, WireRecord.value?, if_neg (by omega), Option.or_none]
  refine ⟨h.shaped, fun i ↦ ?_, fun i field' v hfield hv ↦ ?_, fun i hnone ↦ ?_⟩
  · rw [h.bits i, Nat.testBit_or, Nat.shiftLeft_eq, Nat.one_mul]
    rcases eq_or_ne j i with rfl | hne
    · rw [hself, Nat.testBit_two_pow_self, Option.isSome_or]
      simp only [Option.isSome_some, Bool.or_true, Bool.true_or]
    · rw [hother hne, Nat.testBit_two_pow_of_ne hne, Bool.or_false]
  · rcases eq_or_ne j i with rfl | hne
    · obtain rfl := Option.some.inj (hj.symm.trans hfield)
      rw [hself] at hv
      cases hlast : lastSent (j + 1) rs with
      | some w =>
        rw [hlast] at hv
        obtain rfl := Option.some.inj hv
        exact h.received j field w hj hlast
      | none =>
        rw [hlast] at hv
        obtain rfl := Option.some.inj hv
        exact ⟨d, (h.kept j hlast).trans (List.getElem?_set_self hlen), hd⟩
    · rw [hother hne] at hv
      exact h.received i field' v hfield hv
  · rcases eq_or_ne j i with rfl | hne
    · rw [hself] at hnone
      cases hlast : lastSent (j + 1) rs with
      | some w => simp [hlast] at hnone
      | none => simp [hlast] at hnone
    · rw [hother hne] at hnone
      exact (h.kept i hnone).trans (List.getElem?_set_ne hne)

/-- A member of the layout stands at the position before its tag. -/
theorem Consecutive.getElem?_of_mem (hcons : Consecutive fields) {field : PbField}
    (hmem : field ∈ fields) :
    ∃ j, fields[j]? = some field ∧ field.tag = j + 1 ∧ j < fields.length := by
  obtain ⟨j, hj, rfl⟩ := List.mem_iff_getElem.1 hmem
  exact ⟨j, List.getElem?_eq_getElem hj, hcons.tag_eq hj, hj⟩

/-- **The loop over the records of a message**, by induction on them. -/
theorem pbDecodeLoop_records (hcons : Consecutive fields)
    (hrs : ∀ r ∈ rs, r.WellFormed fields) (hshaped : List.Forall₂ Shaped fields dest)
    {s : PbIstream} (h : s.Reads (messageBytes rs)) (hleft : s.bytesLeft = (messageBytes rs).length)
    (hstack : s.onStack = false) {fuel : ℕ} (hfuel : s.bytesLeft ≤ fuel) (seen : ℕ) :
    ∃ dest' seen', pbDecodeLoop mbluePbGetBytesPointer fields fuel s dest seen =
        .ok (dest', seen', s.advance (messageBytes rs).length) ∧
      Folded s.buf fields rs dest seen dest' seen' := by
  induction rs generalizing s dest seen fuel with
  | nil =>
    refine ⟨dest, seen, ?_, folded_nil hshaped⟩
    have hzero : s.bytesLeft = 0 := hleft
    cases fuel with
    | zero => rfl
    | succ fuel =>
      unfold pbDecodeLoop
      rw [if_pos hzero]
      rfl
  | cons r rs ih =>
    have hpos := r.length_bytes_pos
    have hmessage : messageBytes (r :: rs) = r.bytes ++ messageBytes rs := List.flatMap_cons
    rw [hmessage] at h hleft ⊢
    rw [List.length_append] at hleft
    obtain ⟨fuel, rfl⟩ : ∃ k, fuel = k + 1 := ⟨fuel - 1, by omega⟩
    have hleft' : (s.advance r.bytes.length).bytesLeft = (messageBytes rs).length := by
      rw [advance_bytesLeft]
      omega
    have hfuel' : (s.advance r.bytes.length).bytesLeft ≤ fuel := by
      rw [advance_bytesLeft]
      omega
    -- the induction hypothesis, from the end of the first record on
    have hagain {dest₁ : List (PbValue MblueByteBundler)}
        (hshaped₁ : List.Forall₂ Shaped fields dest₁) :=
      ih (fun r hr ↦ hrs r (List.mem_cons_of_mem _ hr)) hshaped₁ h.right hleft' hstack hfuel'
    have hwell := hrs r List.mem_cons_self
    cases hwell with
    | @unknown tag wireType payload hnone htag hlt hpayload =>
      -- no field has this tag: the payload is skipped and nothing is stored
      have hwt : wireType < 8 := by cases hpayload <;> decide
      have hrecord : s.Reads (Varint.encode (tag <<< 3 ||| wireType) ++ payload) := h.left
      have hkey := pbDecodeTag_key hrecord.left htag hlt hwt
      have hskip := pbSkipField_reads hpayload hrecord.right
      rw [advance_advance, ← List.length_append] at hskip
      have hmissing : fields.findIdx (·.tag == tag) = fields.length :=
        List.findIdx_eq_length.2 fun f hf ↦ beq_eq_false_iff_ne.2 (hnone f hf)
      obtain ⟨dest', seen', hloop, hfolded⟩ := hagain hshaped seen
      refine ⟨dest', seen', ?_, hfolded.unknown⟩
      unfold pbDecodeLoop
      rw [if_neg (by omega), hkey]
      simp only [ok_bind, hmissing, List.getElem?_eq_none (le_refl fields.length), hskip]
      rw [WireRecord.bytes] at hloop
      rw [hloop, advance_advance, ← List.length_append]
      rfl
    | @member field value hmem hfit hcount =>
      -- the field has a place in the struct, and is decoded over what is there
      obtain ⟨j, hj, htag, hlt⟩ := hcons.getElem?_of_mem hmem
      have hlen : j < dest.length := hshaped.length_eq ▸ hlt
      have hold : Shaped field dest[j] := by
        obtain ⟨_, rfl⟩ := List.getElem?_eq_some_iff.1 hj
        exact (List.forall₂_iff_get.1 hshaped).2 j hlt hlen
      have hrecord : s.Reads (Varint.encode (field.tag <<< 3 ||| field.ltype.wireType) ++
        wireValue field value) := h.left
      have hfind : fields.findIdx (·.tag == field.tag) = j := htag ▸ hcons.findIdx_eq hlt
      have hfew := hcons.1
      have hkey := pbDecodeTag_reads hrecord.left (by omega) (by omega)
      obtain ⟨d, hd, hreceived, hshape⟩ :=
        decodeField_over hfit hcount hrecord.right hstack hold
      rw [advance_advance, ← List.length_append] at hd
      obtain ⟨dest', seen', hloop, hfolded⟩ :=
        hagain (forall₂_set hshaped hj hshape) (seen ||| 1 <<< j)
      refine ⟨dest', seen', ?_, hfolded.member hj htag hlen hreceived⟩
      unfold pbDecodeLoop
      rw [if_neg (by omega), hkey]
      simp only [ok_bind, hfind, hj, List.getElem?_eq_getElem hlen]
      rw [hd, ok_bind]
      rw [WireRecord.bytes, wireField] at hloop
      rw [hloop, advance_advance, ← List.length_append]
      rfl

/-- There are no members beyond the layout. -/
theorem lastSent_eq_none (hcons : Consecutive fields) (hrs : ∀ r ∈ rs, r.WellFormed fields)
    {i : ℕ} (hi : fields.length ≤ i) : lastSent (i + 1) rs = none := by
  induction rs with
  | nil => rfl
  | cons r rs ih =>
    rw [lastSent, ih fun r hr ↦ hrs r (List.mem_cons_of_mem _ hr), Option.none_or]
    cases hrs r List.mem_cons_self with
    | unknown hnone hpos hlt hpayload => rfl
    | member hmem hfit hcount =>
      obtain ⟨j, -, htag, hlt⟩ := hcons.getElem?_of_mem hmem
      rw [WireRecord.value?, if_neg (by omega)]

/-- The message has a record for every member. -/
def AllSent (fields : List PbField) (rs : List WireRecord) : Prop :=
  ∀ f ∈ fields, (lastSent f.tag rs).isSome = true

/-- The mask is full when every member was sent, and only then. -/
theorem Folded.seen_eq_iff (h : Folded buf fields rs dest 0 dest' seen')
    (hcons : Consecutive fields)
    (hrs : ∀ r ∈ rs, r.WellFormed fields) :
    seen' = 2 ^ fields.length - 1 ↔ AllSent fields rs := by
  have hbits (i : ℕ) : seen'.testBit i = (lastSent (i + 1) rs).isSome := by
    rw [h.bits i, Nat.zero_testBit, Bool.false_or]
  constructor
  · intro hseen f hf
    obtain ⟨j, -, htag, hlt⟩ := hcons.getElem?_of_mem hf
    rw [htag, ← hbits, hseen, Nat.testBit_two_pow_sub_one, decide_eq_true_eq]
    exact hlt
  · intro hall
    refine Nat.eq_of_testBit_eq fun i ↦ ?_
    rw [hbits, Nat.testBit_two_pow_sub_one]
    rcases Nat.lt_or_ge i fields.length with hlt | hge
    · have hsome := hall fields[i] (List.getElem_mem hlt)
      rw [hcons.tag_eq hlt] at hsome
      rw [hsome, decide_eq_true hlt]
    · rw [lastSent_eq_none hcons hrs hge, decide_eq_false (Nat.not_lt.2 hge)]
      rfl

/-- What a message leaves in the members: the last value sent for each. -/
def LastReceived (buf : List UInt8) (rs : List WireRecord) (field : PbField)
    (d : PbValue MblueByteBundler) : Prop :=
  ∃ v, lastSent field.tag rs = some v ∧ Received buf field v d

theorem Folded.lastReceived (h : Folded buf fields rs dest 0 dest' seen')
    (hcons : Consecutive fields) (hall : AllSent fields rs) :
    List.Forall₂ (LastReceived buf rs) fields dest' := by
  refine List.forall₂_iff_get.2 ⟨h.shaped.length_eq, fun i hi hi' ↦ ?_⟩
  obtain ⟨v, hv⟩ := Option.isSome_iff_exists.1 (hall fields[i] (List.getElem_mem hi))
  have hsent := hv
  rw [hcons.tag_eq hi] at hsent
  obtain ⟨d, hd, hreceived⟩ := h.received i _ v (List.getElem?_eq_getElem hi) hsent
  rw [List.getElem?_eq_getElem hi'] at hd
  obtain rfl : dest'[i] = d := Option.some.inj hd
  exact ⟨v, hv, hreceived⟩

/-- **A delimited message of well-formed records**, in any order: it is decoded, to the last value
sent for each member, when every member was sent, and is turned down otherwise. -/
theorem pbDecodeDelimited_records (hcons : Consecutive fields)
    (hrs : ∀ r ∈ rs, r.WellFormed fields) {s : PbIstream}
    (h : s.Reads (delimited (messageBytes rs))) (hlen : (messageBytes rs).length < 2 ^ 32)
    (hstack : s.onStack = false) :
    (AllSent fields rs → ∃ dest, pbDecodeDelimited mbluePbGetBytesPointer s fields =
        .ok (dest, s.advance (delimited (messageBytes rs)).length) ∧
      List.Forall₂ (LastReceived s.buf rs) fields dest) ∧
    (¬AllSent fields rs → pbDecodeDelimited mbluePbGetBytesPointer s fields = .error .failed) := by
  have hsub := h.right.withBound (le_refl (messageBytes rs).length)
  have hdefault : List.Forall₂ Shaped fields (fields.map pbFieldDefault) :=
    (progress_default s.buf fields).shaped
  obtain ⟨dest, seen, hloop, hfolded⟩ := pbDecodeLoop_records hcons hrs hdefault hsub rfl hstack
    (le_refl _) 0
  have hiff := hfolded.seen_eq_iff hcons hrs
  unfold pbDecodeDelimited pbDecode
  rw [pbMakeStringSubstream_reads h hlen]
  simp only [ok_bind, hloop]
  constructor
  · intro hall
    refine ⟨dest, ?_, hfolded.lastReceived hcons hall⟩
    simp only [hiff.2 hall, ne_eq, not_true_eq_false, ↓reduceIte, pure_eq_ok, ok_bind]
    rw [pbCloseStringSubstream_of_bytesLeft (Nat.sub_self _)]
    simp only [ok_bind, advance, delimited, List.length_append, Nat.add_assoc, Nat.sub_sub]
  · intro hnot
    simp only [ne_eq, mt hiff.1 hnot, not_false_eq_true, ↓reduceIte, throw_eq_error, error_bind]

end Message

end Mblue
