import Mblue.Library.Outcome
import Mblue.Schema.Decoding

/-!
# The decoder stays inside its block

`Decoding.lean` says what the decoder makes of well-formed bytes; here the bytes are arbitrary. A
stream whose bound lies in its buffer (`PbIstream.Bounded`) is decoded without an access outside
the buffer: each function returns `false` or leaves a stream some bytes further within the bound
(`PbIstream.After`). There is one lemma for each function of `pb_decode.c`, in the order of
`Nanopb.lean`.

What a decoded field holds is well formed whatever was sent (`Decoded`): a string has the size of
its member and is terminated, and a bundler points at bytes of the block, or at bytes of the
decoder's own ten-byte buffer when the field came with a scalar wire type. The bundler of a member
that was not sent is the null pointer it was initialised with, so the postcondition of the loop
(`Progress`) ties the members to the bit mask `fields_seen`, which `pb_decode` checks at the end.
-/

namespace Mblue

/-- The one reason to stop that leaves the state of the C program defined. -/
def PbStop.IsFailed (e : PbStop) : Prop := e = .failed

namespace PbIstream

/-- The bound of the stream lies in its buffer. -/
def Bounded (s : PbIstream) : Prop := s.state + s.bytesLeft ≤ s.buf.length

/-- The second stream is the first some bytes later, within the bound. -/
def After (s t : PbIstream) : Prop := ∃ n ≤ s.bytesLeft, t = s.advance n

variable {s t u : PbIstream}

theorem After.refl (s : PbIstream) : s.After s := ⟨0, Nat.zero_le _, rfl⟩

theorem After.trans (hst : s.After t) (htu : t.After u) : s.After u := by
  obtain ⟨m, hm, rfl⟩ := hst
  obtain ⟨n, hn, rfl⟩ := htu
  rw [advance_bytesLeft] at hn
  exact ⟨m + n, by omega, advance_advance s m n⟩

theorem After.bounded (hst : s.After t) (hs : s.Bounded) : t.Bounded := by
  obtain ⟨n, hn, rfl⟩ := hst
  rw [Bounded, advance_state, advance_bytesLeft, advance_buf]
  rw [Bounded] at hs
  omega

theorem After.buf_eq (hst : s.After t) : t.buf = s.buf := by
  obtain ⟨n, -, rfl⟩ := hst
  rfl

theorem After.onStack_eq (hst : s.After t) : t.onStack = s.onStack := by
  obtain ⟨n, -, rfl⟩ := hst
  rfl

end PbIstream

open PbIstream

variable {s : PbIstream}

/-! ### Reading -/

theorem pbRead_meets (hs : s.Bounded) (count : ℕ) :
    Meets PbStop.IsFailed (fun r ↦ r.1.length = count ∧ r.2 = s.advance count ∧ s.After r.2)
      (pbRead s count) := by
  refine Meets.guard (fun _ ↦ rfl) fun hleft ↦ ?_
  rw [Bounded] at hs
  rw [if_neg (by omega), meets_pure, List.length_take, List.length_drop]
  exact ⟨by omega, rfl, count, by omega, rfl⟩

theorem pbReadNull_meets (s : PbIstream) (count : ℕ) :
    Meets PbStop.IsFailed (fun t ↦ t = s.advance count ∧ s.After t) (pbReadNull s count) :=
  Meets.guard (fun _ ↦ rfl) fun hleft ↦ ⟨rfl, count, by omega, rfl⟩

theorem pbReadbyte_meets (hs : s.Bounded) :
    Meets PbStop.IsFailed (fun r ↦ s.After r.2) (pbReadbyte s) := by
  refine Meets.guard (fun _ ↦ rfl) fun hleft ↦ ?_
  rw [Bounded] at hs
  rw [List.getElem?_eq_getElem (by omega)]
  exact ⟨1, by omega, rfl⟩

theorem pbDecodeVarint32Loop_meets (hs : s.Bounded) (fuel result bitpos : ℕ) :
    Meets PbStop.IsFailed (fun r ↦ s.After r.2.2.2)
      (pbDecodeVarint32Loop fuel s result bitpos) := by
  induction fuel generalizing s result bitpos with
  | zero => rfl
  | succ fuel ih =>
    refine (pbReadbyte_meets hs).bind fun r hr ↦ ?_
    refine Meets.guard (fun _ ↦ rfl) fun _ ↦ ?_
    refine Meets.ite (fun _ ↦ hr) fun _ ↦ ?_
    exact (ih (hr.bounded hs) _ _).mono fun _ ht ↦ hr.trans ht

theorem pbDecodeVarint32Eof_meets (hs : s.Bounded) :
    Meets PbStop.IsFailed (fun o ↦ ∀ r ∈ o, s.After r.2) (pbDecodeVarint32Eof s) := by
  refine Meets.ite (fun _ ↦ ?_) fun _ ↦ ?_
  · rintro r ⟨⟩
  · refine (pbReadbyte_meets hs).bind fun r hr ↦ ?_
    refine Meets.ite (fun _ ↦ ?_) fun _ ↦ ?_
    · rintro _ ⟨⟩
      exact hr
    · refine (pbDecodeVarint32Loop_meets (hr.bounded hs) _ _ _).bind fun t ht ↦ ?_
      refine Meets.guard (fun _ ↦ rfl) fun _ ↦ ?_
      rintro _ ⟨⟩
      exact hr.trans ht

theorem pbDecodeVarint32_meets (hs : s.Bounded) :
    Meets PbStop.IsFailed (fun r ↦ s.After r.2) (pbDecodeVarint32 s) := by
  refine (pbDecodeVarint32Eof_meets hs).bind fun o ho ↦ ?_
  cases o with
  | none => rfl
  | some r => exact ho r rfl

theorem pbDecodeVarintLoop_meets (hs : s.Bounded) (fuel result bitpos : ℕ) :
    Meets PbStop.IsFailed (fun r ↦ s.After r.2) (pbDecodeVarintLoop fuel s result bitpos) := by
  induction fuel generalizing s result bitpos with
  | zero => rfl
  | succ fuel ih =>
    refine Meets.guard (fun _ ↦ rfl) fun _ ↦ ?_
    refine (pbReadbyte_meets hs).bind fun r hr ↦ ?_
    refine Meets.ite (fun _ ↦ hr) fun _ ↦ ?_
    exact (ih (hr.bounded hs) _ _).mono fun _ ht ↦ hr.trans ht

theorem pbDecodeTag_meets (hs : s.Bounded) :
    Meets PbStop.IsFailed (fun o ↦ ∀ r ∈ o, s.After r.2.2) (pbDecodeTag s) := by
  refine (pbDecodeVarint32Eof_meets hs).bind fun o ho ↦ ?_
  cases o with
  | none => rintro r ⟨⟩
  | some r =>
    refine Meets.ite (fun _ ↦ ?_) fun _ ↦ ?_
    · rintro _ ⟨⟩
    · rintro _ ⟨⟩
      exact ho r rfl

/-! ### Skipping -/

theorem pbSkipVarint_meets (hs : s.Bounded) (fuel : ℕ) :
    Meets PbStop.IsFailed s.After (pbSkipVarint fuel s) := by
  induction fuel generalizing s with
  | zero => rfl
  | succ fuel ih =>
    refine (pbReadbyte_meets hs).bind fun r hr ↦ ?_
    refine Meets.ite (fun _ ↦ hr) fun _ ↦ ?_
    exact (ih (hr.bounded hs)).mono fun _ ht ↦ hr.trans ht

theorem pbSkipField_meets (hs : s.Bounded) (wireType : ℕ) :
    Meets PbStop.IsFailed s.After (pbSkipField s wireType) := by
  refine Meets.ite (fun _ ↦ pbSkipVarint_meets hs _) fun _ ↦ ?_
  refine Meets.ite (fun _ ↦ (pbReadNull_meets s 8).mono fun _ ht ↦ ht.2) fun _ ↦ ?_
  refine Meets.ite (fun _ ↦ ?_) fun _ ↦ ?_
  · refine (pbDecodeVarint32_meets hs).bind fun r hr ↦ ?_
    exact (pbReadNull_meets r.2 r.1).mono fun _ ht ↦ hr.trans ht.2
  · exact Meets.ite (fun _ ↦ (pbReadNull_meets s 4).mono fun _ ht ↦ ht.2) fun _ ↦ rfl

/-! ### Raw values and substreams -/

theorem readRawVarint_meets (hs : s.Bounded) (fuel : ℕ) :
    Meets PbStop.IsFailed (fun r ↦ r.1.length ≤ fuel ∧ s.After r.2) (readRawVarint fuel s) := by
  induction fuel generalizing s with
  | zero => rfl
  | succ fuel ih =>
    refine (pbReadbyte_meets hs).bind fun r hr ↦ ?_
    refine Meets.ite (fun _ ↦ ⟨Nat.succ_le_succ (Nat.zero_le fuel), hr⟩) fun _ ↦ ?_
    exact (ih (hr.bounded hs)).bind fun t ht ↦ ⟨Nat.succ_le_succ ht.1, hr.trans ht.2⟩

/-- The buffer of the caller has ten bytes. -/
theorem readRawValue_meets (hs : s.Bounded) (wireType : ℕ) :
    Meets PbStop.IsFailed (fun r ↦ r.1.length ≤ 10 ∧ s.After r.2) (readRawValue s wireType) := by
  refine Meets.ite (fun _ ↦ readRawVarint_meets hs 10) fun _ ↦ ?_
  refine Meets.ite (fun _ ↦ (pbRead_meets hs 8).mono fun _ ht ↦ ⟨?_, ht.2.2⟩) fun _ ↦ ?_
  · rw [ht.1]
    decide
  refine Meets.ite (fun _ ↦ (pbRead_meets hs 4).mono fun _ ht ↦ ⟨?_, ht.2.2⟩) fun _ ↦ rfl
  rw [ht.1]
  decide

/-- A substream, and the stream behind its length: they start at the same byte, and the bound of the
second is what the substream leaves. -/
structure Substream (s sub rest : PbIstream) : Prop where
  after : s.After { sub with bytesLeft := sub.bytesLeft + rest.bytesLeft }
  rest_eq : rest = { sub with bytesLeft := rest.bytesLeft }

theorem Substream.bounded {sub rest : PbIstream} (h : Substream s sub rest) (hs : s.Bounded) :
    sub.Bounded := by
  have hb : sub.state + (sub.bytesLeft + rest.bytesLeft) ≤ sub.buf.length := h.after.bounded hs
  rw [Bounded]
  omega

theorem pbMakeStringSubstream_meets (hs : s.Bounded) :
    Meets PbStop.IsFailed (fun r ↦ Substream s r.1 r.2) (pbMakeStringSubstream s) := by
  refine (pbDecodeVarint32_meets hs).bind fun r hr ↦ ?_
  refine Meets.guard (fun _ ↦ rfl) fun hsize ↦ ⟨?_, rfl⟩
  dsimp only
  rw [Nat.add_sub_cancel' (Nat.not_lt.1 hsize)]
  exact hr

/-- The stream goes on behind the substream, however much of it was read. -/
theorem pbCloseStringSubstream_eq {sub rest t : PbIstream} (ht : sub.After t) :
    pbCloseStringSubstream rest t = .ok { rest with state := sub.state + sub.bytesLeft } := by
  obtain ⟨n, hn, rfl⟩ := ht
  unfold pbCloseStringSubstream
  rcases Nat.eq_or_lt_of_le hn with rfl | hlt
  · rw [if_pos (by rw [advance_bytesLeft, Nat.sub_self])]
    rfl
  · rw [if_neg (by rw [advance_bytesLeft]; omega), pbReadNull, if_neg (Nat.lt_irrefl _)]
    simp only [pure_eq_ok, ok_bind, advance_state, advance_bytesLeft, Nat.add_assoc,
      Nat.add_sub_cancel' hn]

theorem Substream.after_close {sub rest : PbIstream} (h : Substream s sub rest) :
    s.After { rest with state := sub.state + sub.bytesLeft } := by
  refine h.after.trans ⟨sub.bytesLeft, Nat.le_add_right _ _, ?_⟩
  rw [h.rest_eq, advance, Nat.add_sub_cancel_left]

/-! ### Fields -/

/-- The bundler points at bytes of the stream's buffer. -/
def PbIstream.Holds (s : PbIstream) (b : MblueByteBundler) : Prop :=
  ∃ off, b.byte = (if s.onStack then .stack off else .block off) ∧ off + b.len ≤ s.buf.length

theorem PbIstream.Holds.of_after {t : PbIstream} {b : MblueByteBundler} (hst : s.After t)
    (h : t.Holds b) : s.Holds b := by
  obtain ⟨off, hbyte, hlen⟩ := h
  rw [hst.onStack_eq] at hbyte
  rw [hst.buf_eq] at hlen
  exact ⟨off, hbyte, hlen⟩

/-- A decode callback that stays inside the stream it gets. -/
def PbDecodeCallback.Contained (decode : PbDecodeCallback) : Prop :=
  ∀ s : PbIstream, s.Bounded →
    Meets PbStop.IsFailed (fun r ↦ s.Holds r.1 ∧ s.After r.2) (decode s)

theorem drainInputBuffer_meets (hs : s.Bounded) (fuel count : ℕ) :
    Meets PbStop.IsFailed s.After (drainInputBuffer fuel s count) := by
  induction fuel generalizing s count with
  | zero => exact (pbRead_meets hs count).bind fun r hr ↦ hr.2.2
  | succ fuel ih =>
    refine Meets.ite (fun _ ↦ ?_) fun _ ↦ ?_
    · refine (pbRead_meets hs 16).bind fun r hr ↦ ?_
      exact (ih (hr.2.2.bounded hs) _).mono fun _ ht ↦ hr.2.2.trans ht
    · exact (pbRead_meets hs count).bind fun r hr ↦ hr.2.2

/-- **The callback of the data members** points at what is left of its stream. -/
theorem mbluePbGetBytesPointer_contained :
    PbDecodeCallback.Contained mbluePbGetBytesPointer := by
  intro s hs
  refine (drainInputBuffer_meets hs _ _).bind fun t ht ↦ ⟨⟨s.state, ?_, hs⟩, ht⟩
  rfl

variable {decode : PbDecodeCallback}

theorem decodeCallbackLoop_meets (hdecode : decode.Contained) (hs : s.Bounded) (fuel : ℕ) :
    Meets PbStop.IsFailed (fun r ↦ s.Holds r.1 ∧ s.After r.2)
      (decodeCallbackLoop decode fuel s) := by
  induction fuel generalizing s with
  | zero => exact hdecode s hs
  | succ fuel ih =>
    refine (hdecode s hs).bind fun r hr ↦ ?_
    refine Meets.ite (fun _ ↦ hr) fun _ ↦ ?_
    exact (ih (hr.2.bounded hs)).mono fun _ ht ↦ ⟨ht.1.of_after hr.2, hr.2.trans ht.2⟩

/-- What a field holds after it was decoded from a stream over the block `buf`. -/
inductive Decoded (buf : List UInt8) (field : PbField) : PbValue MblueByteBundler → Prop
  | int32 (v : BitVec 32) (hatype : field.atype = .static) (hltype : field.ltype = .varint) :
      Decoded buf field (.int32 v)
  | chars (bytes : List UInt8) (hatype : field.atype = .static) (hltype : field.ltype ≠ .varint)
      (hsize : bytes.length = field.dataSize) (hzero : 0 ∈ bytes) :
      Decoded buf field (.chars bytes)
  | block (off len : ℕ) (hatype : field.atype = .callback) (hlen : off + len ≤ buf.length) :
      Decoded buf field (.callback ⟨len, .block off⟩)
  | stack (off len : ℕ) (hatype : field.atype = .callback) (hlen : off + len ≤ 10) :
      Decoded buf field (.callback ⟨len, .stack off⟩)

/-- A member of the C type of its field, whatever it holds. -/
inductive Shaped (field : PbField) : PbValue MblueByteBundler → Prop
  | int32 (v : BitVec 32) (hatype : field.atype = .static) (hltype : field.ltype = .varint) :
      Shaped field (.int32 v)
  | chars (bytes : List UInt8) (hatype : field.atype = .static) (hltype : field.ltype ≠ .varint)
      (hsize : bytes.length = field.dataSize) : Shaped field (.chars bytes)
  | callback (b : MblueByteBundler) (hatype : field.atype = .callback) :
      Shaped field (.callback b)

theorem Decoded.shaped {buf : List UInt8} {field : PbField} {v : PbValue MblueByteBundler}
    (h : Decoded buf field v) : Shaped field v := by
  cases h with
  | int32 v hatype hltype => exact .int32 v hatype hltype
  | chars bytes hatype hltype hsize hzero => exact .chars bytes hatype hltype hsize
  | block off len hatype hlen => exact .callback _ hatype
  | stack off len hatype hlen => exact .callback _ hatype

theorem shaped_pbFieldDefault (field : PbField) : Shaped field (pbFieldDefault field) := by
  obtain ⟨tag, ltype, atype, dataSize⟩ := field
  cases atype with
  | callback => exact .callback _ rfl
  | static =>
    cases ltype with
    | varint => exact .int32 _ rfl rfl
    | bytes => exact .chars _ rfl PbLtype.noConfusion List.length_replicate
    | string => exact .chars _ rfl PbLtype.noConfusion List.length_replicate

theorem pbDecString_meets (hs : s.Bounded) {field : PbField} (hatype : field.atype = .static)
    (hltype : field.ltype = .string) {old : PbValue MblueByteBundler} (hold : Shaped field old) :
    Meets PbStop.IsFailed (fun r ↦ Decoded s.buf field r.1 ∧ s.After r.2)
      (pbDecString s field old) := by
  refine (pbDecodeVarint32_meets hs).bind fun r hr ↦ ?_
  refine Meets.guard (fun _ ↦ rfl) fun hwrap ↦ ?_
  refine Meets.guard (fun _ ↦ rfl) fun hfits ↦ ?_
  refine (pbRead_meets (hr.bounded hs) r.1).bind fun t ht ↦ ?_
  cases hold with
  | int32 v _ hvarint => simp [hltype] at hvarint
  | callback b hcallback => simp [hatype] at hcallback
  | chars dest _ hstatic hsize =>
    refine ⟨.chars _ hatype hstatic ?_ ?_, hr.trans ht.2.2⟩
    · rw [List.length_append, List.length_cons, List.length_drop, ht.1]
      omega
    · exact List.mem_append_right _ List.mem_cons_self

theorem decodeStaticField_meets (hs : s.Bounded) {field : PbField} (hatype : field.atype = .static)
    {old : PbValue MblueByteBundler} (hold : Shaped field old) :
    Meets PbStop.IsFailed (fun r ↦ Decoded s.buf field r.1 ∧ s.After r.2)
      (decodeStaticField s field old) := by
  unfold decodeStaticField
  cases hltype : field.ltype with
  | varint =>
    exact (pbDecodeVarintLoop_meets hs _ _ _).bind fun r hr ↦ ⟨.int32 _ hatype hltype, hr⟩
  | string => exact pbDecString_meets hs hatype hltype hold
  | bytes => rfl

/-- A scalar wire type is the one case in which the bundler leaves the block. -/
theorem decodeCallbackField_meets (hdecode : decode.Contained) (hs : s.Bounded)
    (hblock : s.onStack = false) {field : PbField} (hatype : field.atype = .callback)
    (wireType : ℕ) :
    Meets PbStop.IsFailed (fun r ↦ Decoded s.buf field r.1 ∧ s.After r.2)
      (decodeCallbackField decode s wireType) := by
  refine Meets.ite (fun _ ↦ ?_) fun _ ↦ ?_
  · refine (pbMakeStringSubstream_meets hs).bind fun ⟨sub, rest⟩ hsub ↦ ?_
    have hloop := decodeCallbackLoop_meets hdecode (hsub.bounded hs) sub.bytesLeft
    refine hloop.bind fun ⟨b, t⟩ ht ↦ ?_
    dsimp only
    rw [pbCloseStringSubstream_eq ht.2]
    obtain ⟨off, hbyte, hlen⟩ := ht.1
    obtain ⟨len, byte⟩ := b
    have hstack : sub.onStack = s.onStack := hsub.after.onStack_eq
    have hbuf : sub.buf = s.buf := hsub.after.buf_eq
    rw [hstack, hblock, if_neg Bool.false_ne_true] at hbyte
    obtain rfl : byte = .block off := hbyte
    exact ⟨.block off len hatype (hbuf ▸ hlen), hsub.after_close⟩
  · refine (readRawValue_meets hs wireType).bind fun r hr ↦ ?_
    have hbuffer : PbIstream.Bounded ⟨r.1, true, 0, r.1.length⟩ := (Nat.zero_add _).le
    refine (hdecode _ hbuffer).bind fun t ht ↦ ?_
    obtain ⟨⟨len, byte⟩, u⟩ := t
    obtain ⟨⟨off, hbyte, hlen⟩, -⟩ := ht
    obtain rfl : byte = .stack off := hbyte
    exact ⟨.stack off len hatype (hlen.trans hr.1), hr.2⟩

theorem decodeField_meets (hdecode : decode.Contained) (hs : s.Bounded) (hblock : s.onStack = false)
    (field : PbField) (wireType : ℕ) {old : PbValue MblueByteBundler} (hold : Shaped field old) :
    Meets PbStop.IsFailed (fun r ↦ Decoded s.buf field r.1 ∧ s.After r.2)
      (decodeField decode s wireType field old) := by
  unfold decodeField
  cases hatype : field.atype with
  | static => exact decodeStaticField_meets hs hatype hold
  | callback => exact decodeCallbackField_meets hdecode hs hblock hatype wireType

/-! ### Structs -/

/-- The members so far: each has the C type of its field, and those whose bit is set were
decoded. -/
structure Progress (buf : List UInt8) (fields : List PbField)
    (dest : List (PbValue MblueByteBundler)) (seen : ℕ) : Prop where
  shaped : List.Forall₂ Shaped fields dest
  decoded : ∀ i field v, seen.testBit i = true → fields[i]? = some field → dest[i]? = some v →
    Decoded buf field v

variable {buf : List UInt8} {fields : List PbField} {dest : List (PbValue MblueByteBundler)}
  {seen : ℕ}

theorem progress_default (buf : List UInt8) (fields : List PbField) :
    Progress buf fields (fields.map pbFieldDefault) 0 := by
  refine ⟨List.forall₂_map_right_iff.2 (List.forall₂_same.2 fun f _ ↦ shaped_pbFieldDefault f), ?_⟩
  intro i field v hbit
  rw [Nat.zero_testBit] at hbit
  exact absurd hbit Bool.false_ne_true

/-- A member of the right type in its place. -/
theorem forall₂_set {i : ℕ} {field : PbField} {v : PbValue MblueByteBundler}
    (h : List.Forall₂ Shaped fields dest) (hfield : fields[i]? = some field) (hv : Shaped field v) :
    List.Forall₂ Shaped fields (dest.set i v) := by
  have hlen := h.length_eq
  refine List.forall₂_iff_get.2 ⟨by rw [List.length_set, hlen], fun j hj hj' ↦ ?_⟩
  rw [List.get_eq_getElem, List.get_eq_getElem, List.getElem_set]
  split
  · next hij =>
    subst hij
    rw [List.getElem?_eq_getElem hj, Option.some.injEq] at hfield
    exact hfield ▸ hv
  · exact (List.forall₂_iff_get.1 h).2 j hj (by omega)

theorem Progress.set (h : Progress buf fields dest seen) {i : ℕ} {field : PbField}
    {v : PbValue MblueByteBundler} (hfield : fields[i]? = some field)
    (hv : Decoded buf field v) : Progress buf fields (dest.set i v) (seen ||| 1 <<< i) := by
  have hlen := h.shaped.length_eq
  refine ⟨forall₂_set h.shaped hfield hv.shaped, ?_⟩
  intro j field' v' hbit hfield' hv'
  rcases eq_or_ne i j with rfl | hne
  · obtain rfl := Option.some.inj (hfield.symm.trans hfield')
    rw [List.getElem?_set_self (hlen ▸ (List.getElem?_eq_some_iff.1 hfield).1)] at hv'
    exact Option.some.inj hv' ▸ hv
  · rw [List.getElem?_set_ne hne] at hv'
    refine h.decoded j field' v' ?_ hfield' hv'
    rw [Nat.testBit_or, Nat.shiftLeft_eq, Nat.one_mul, Nat.testBit_two_pow_of_ne hne,
      Bool.or_false] at hbit
    exact hbit

/-- With all bits set every member was decoded. -/
theorem Progress.all_decoded (h : Progress buf fields dest seen)
    (hseen : seen = 2 ^ fields.length - 1) : List.Forall₂ (Decoded buf) fields dest := by
  have hlen := h.shaped.length_eq
  refine List.forall₂_iff_get.2 ⟨hlen, fun i hi hi' ↦ ?_⟩
  refine h.decoded i _ _ ?_ (List.getElem?_eq_getElem hi) (List.getElem?_eq_getElem hi')
  rw [hseen, Nat.testBit_two_pow_sub_one, decide_eq_true_eq]
  exact hi

/-- **The loop of `pb_decode_noinit`**, by induction on its bound: a known field is decoded into its
member, and its bit set; an unknown one is skipped. -/
theorem pbDecodeLoop_meets (hdecode : decode.Contained) (hs : s.Bounded)
    (hblock : s.onStack = false) (fuel : ℕ) (hprogress : Progress s.buf fields dest seen) :
    Meets PbStop.IsFailed (fun r ↦ Progress s.buf fields r.1 r.2.1 ∧ s.After r.2.2)
      (pbDecodeLoop decode fields fuel s dest seen) := by
  induction fuel generalizing s dest seen with
  | zero => exact ⟨hprogress, .refl s⟩
  | succ fuel ih =>
    refine Meets.ite (fun _ ↦ ⟨hprogress, .refl s⟩) fun _ ↦ ?_
    refine (pbDecodeTag_meets hs).bind fun o ho ↦ ?_
    cases o with
    | none => exact ⟨hprogress, .refl s⟩
    | some r =>
      obtain ⟨tag, wireType, t⟩ := r
      have ht : s.After t := ho _ rfl
      have hagain : ∀ {u : PbIstream} {dest' seen'}, t.After u →
          Progress s.buf fields dest' seen' →
          Meets PbStop.IsFailed (fun r ↦ Progress s.buf fields r.1 r.2.1 ∧ s.After r.2.2)
            (pbDecodeLoop decode fields fuel u dest' seen') := by
        intro u dest' seen' hu hprogress'
        have hsu := ht.trans hu
        rw [← hsu.buf_eq] at hprogress' ⊢
        exact (ih (hsu.bounded hs) (hsu.onStack_eq.trans hblock) hprogress').mono
          fun _ h ↦ ⟨h.1, hsu.trans h.2⟩
      dsimp only
      split
      · next field old hfield hold =>
        have hshaped : Shaped field old := by
          obtain ⟨hi, rfl⟩ := List.getElem?_eq_some_iff.1 hfield
          obtain ⟨hi', rfl⟩ := List.getElem?_eq_some_iff.1 hold
          exact (List.forall₂_iff_get.1 hprogress.shaped).2 _ hi hi'
        have hfields := decodeField_meets hdecode (ht.bounded hs) (ht.onStack_eq.trans hblock) field
          wireType hshaped
        refine hfields.bind fun r hr ↦ ?_
        rw [ht.buf_eq] at hr
        exact hagain hr.2 (hprogress.set hfield hr.1)
      · exact (pbSkipField_meets (ht.bounded hs) wireType).bind fun u hu ↦ hagain hu hprogress

/-- **A struct is decoded inside its stream**, and all of its members were decoded. -/
theorem pbDecode_meets (hdecode : decode.Contained) (hs : s.Bounded) (hblock : s.onStack = false)
    (fields : List PbField) :
    Meets PbStop.IsFailed (fun r ↦ List.Forall₂ (Decoded s.buf) fields r.1 ∧ s.After r.2)
      (pbDecode decode s fields) := by
  have hloop := pbDecodeLoop_meets hdecode hs hblock s.bytesLeft (progress_default s.buf fields)
  refine hloop.bind fun r hr ↦ ?_
  refine Meets.guard (fun _ ↦ rfl) fun hseen ↦ ⟨hr.1.all_decoded (Classical.not_not.1 hseen), hr.2⟩

/-- One delimited message. -/
def delimited (body : List UInt8) : List UInt8 := Varint.encode body.length ++ body

/-- **A delimited struct**: the bytes after the length prefix are arbitrary, and so is the bound of
the stream, as long as the announced bytes lie in the block. -/
theorem pbDecodeDelimited_meets (hdecode : decode.Contained) {body : List UInt8}
    (hs : s.Reads (delimited body)) (hlen : body.length < 2 ^ 32) (hblock : s.onStack = false)
    (fields : List PbField) :
    Meets PbStop.IsFailed (fun r ↦ List.Forall₂ (Decoded s.buf) fields r.1 ∧
      r.2 = s.advance (delimited body).length) (pbDecodeDelimited decode s fields) := by
  have hend := hs.right.end_le
  have hbound := hs.bound
  rw [delimited, List.length_append] at hbound
  unfold pbDecodeDelimited pbMakeStringSubstream
  have hfits : ¬s.bytesLeft - (Varint.encode body.length).length < body.length := by omega
  simp only [pbDecodeVarint32_reads hs.left hlen, ok_bind, advance_bytesLeft, hfits, ↓reduceIte,
    pure_eq_ok]
  have hsub : PbIstream.Bounded
    { s.advance (Varint.encode body.length).length with bytesLeft := body.length } := hend
  refine (pbDecode_meets hdecode hsub hblock fields).bind fun r hr ↦ ?_
  rw [pbCloseStringSubstream_eq hr.2, ok_bind]
  refine ⟨hr.1, ?_⟩
  simp only [advance, delimited, List.length_append, Nat.add_assoc, Nat.sub_sub]

end Mblue
