import Mblue.Schema.RoundTrip

/-!
# Encoding succeeds where there is room

`Encoding.lean` says what a successful encoding has written. Here is when it succeeds: a stream with
room for the bytes takes them (`HasRoom.pbWrite`, `HasRoom.foldlM`), so a delimited struct needs room
for its length prefix and its wire bytes (`HasRoom.pbEncodeSubmessage`). The buffer that
`mblue_serialize_ipc` allocates has that room for every layout, since the four bytes it adds for
each part cover a prefix of five bytes of the one together with a prefix of one byte of the other.
-/

namespace Mblue

/-- A stream over a buffer takes `n` more bytes. -/
structure HasRoom (s : PbOstream) (n : ℕ) : Prop where
  sizing : s.sizing = false
  maxSize : s.maxSize < 2 ^ 32
  bound : s.bytesWritten + n ≤ s.maxSize
  inBlock : s.state + n ≤ s.block.length

/-- The stream `t` after `n` bytes more than `s`, in the same buffer. -/
structure Counted (s : PbOstream) (n : ℕ) (t : PbOstream) : Prop where
  bytesWritten : t.bytesWritten = s.bytesWritten + n
  maxSize : t.maxSize = s.maxSize

variable {s : PbOstream} {n : ℕ}

theorem HasRoom.pbWrite {bytes : List UInt8} (h : HasRoom s (bytes.length + n)) :
    ∃ t, pbWrite s bytes = .ok t ∧ HasRoom t n ∧ Counted s bytes.length t := by
  obtain ⟨block, sizing, state, maxSize, bytesWritten⟩ := s
  obtain ⟨hsizing, hmax, hbound, hin⟩ := h
  obtain rfl : sizing = false := hsizing
  dsimp only at hmax hbound hin
  have hcount : (bytesWritten + bytes.length) % 2 ^ 32 = bytesWritten + bytes.length :=
    Nat.mod_eq_of_lt (by omega)
  have hle : ¬ maxSize < bytesWritten + bytes.length := by omega
  have hfits : ¬ block.length < state + bytes.length := by omega
  have hwrite : Mblue.pbWrite ⟨block, false, state, maxSize, bytesWritten⟩ bytes =
      .ok ⟨block.take state ++ bytes ++ block.drop (state + bytes.length), false,
        state + bytes.length, maxSize, bytesWritten + bytes.length⟩ := by
    rw [Mblue.pbWrite, hcount, if_neg Bool.false_ne_true, if_neg hle, bufWrite, if_neg hfits]
    rfl
  refine ⟨_, hwrite, ⟨rfl, hmax, ?_, ?_⟩, rfl, rfl⟩
  · show bytesWritten + bytes.length + n ≤ maxSize
    omega
  · rw [(wrote_of_pbWrite rfl hwrite).length_block]
    show state + bytes.length + n ≤ block.length
    omega

theorem HasRoom.foldlM {ps : List (List UInt8)} (h : HasRoom s (ps.flatten.length + n)) :
    ∃ t, ps.foldlM Mblue.pbWrite s = .ok t ∧ HasRoom t n ∧ Counted s ps.flatten.length t := by
  induction ps generalizing s with
  | nil =>
    rw [List.flatten_nil, List.length_nil, Nat.zero_add] at h
    exact ⟨s, rfl, h, rfl, rfl⟩
  | cons p ps ih =>
    rw [List.flatten_cons, List.length_append, Nat.add_assoc] at h
    obtain ⟨t, hp, ht, hpt⟩ := h.pbWrite
    obtain ⟨u, hps, hu, htu⟩ := ih ht
    refine ⟨u, ?_, hu, ?_, htu.maxSize.trans hpt.maxSize⟩
    · rw [List.foldlM_cons, hp]
      exact hps
    · rw [htu.bytesWritten, hpt.bytesWritten, List.flatten_cons, List.length_append, Nat.add_assoc]

/-- **A delimited struct** needs room for its prefix and its bytes. -/
theorem HasRoom.pbEncodeSubmessage {fields : List PbField} {values : List (PbValue (List UInt8))}
    (htyped : List.Forall₂ Typed fields values) (hcount : Countable values)
    (htags : ∀ f ∈ fields, f.tag < 2 ^ 28)
    (h : HasRoom s ((Varint.encode (wire fields values).length).length +
      (wire fields values).length + n)) :
    ∃ t, pbEncodeSubmessage mbluePbWriteBytes s fields values = .ok t ∧ HasRoom t n := by
  have hpieces := flatten_structPieces htyped hcount htags
  generalize wire fields values = P at h hpieces
  have hmax := h.maxSize
  have hbound := h.bound
  have hsize : P.length % 2 ^ 32 = P.length := Nat.mod_eq_of_lt (by omega)
  rw [Nat.add_assoc] at h
  obtain ⟨u, hprefix, hu, hsu⟩ := h.pbWrite
  obtain ⟨block, sizing, state, maxSize, bytesWritten⟩ := u
  obtain ⟨husizing, humax, hubound, huin⟩ := hu
  obtain rfl : sizing = false := husizing
  dsimp only at humax hubound huin
  -- the struct goes to a stream of exactly its size, over the same buffer
  have hsub : HasRoom ⟨block, false, state, P.length, 0⟩
      ((structPieces fields values).flatten.length + 0) := by
    rw [hpieces]
    exact ⟨rfl, by dsimp only; omega, (Nat.zero_add _).le, by dsimp only; omega⟩
  obtain ⟨v, hbody, -, hv⟩ := hsub.foldlM
  have hwrote := wrote_of_foldlM (s := ⟨block, false, state, P.length, 0⟩) rfl
    (show state ≤ block.length by omega) hbody
  have hwritten : v.bytesWritten = P.length := by
    rw [hv.bytesWritten, hpieces]
    exact Nat.zero_add _
  have htotal : (bytesWritten + P.length) % 2 ^ 32 = bytesWritten + P.length :=
    Nat.mod_eq_of_lt (by omega)
  refine ⟨{ v with maxSize := maxSize, bytesWritten := bytesWritten + P.length }, ?_,
    hwrote.sizing, humax, ?_, ?_⟩
  · rw [Mblue.pbEncodeSubmessage, pbEncode_sizing htyped, hpieces]
    simp only [ok_bind, hsize]
    rw [pbEncodeVarint, varintBytes_eq (by omega), hprefix]
    simp only [ok_bind, Bool.false_eq_true, ↓reduceIte, htotal]
    rw [if_neg (by omega), pbEncode_eq_foldlM htyped, hbody]
    simp only [ok_bind, hwritten, htotal, ne_eq, not_true_eq_false, ↓reduceIte, pure_eq_ok]
  · show bytesWritten + P.length + n ≤ maxSize
    omega
  · show v.state + n ≤ v.block.length
    rw [hwrote.length_block, hwrote.state, hpieces]
    show state + P.length + n ≤ block.length
    omega

/-- The data of a member is among the wire bytes. -/
theorem countable_of_wire {fields : List PbField} {values : List (PbValue (List UInt8))}
    (htyped : List.Forall₂ Typed fields values) (hlen : (wire fields values).length < 2 ^ 32) :
    Countable values := by
  induction htyped with
  | nil => exact fun data hmem ↦ absurd hmem List.not_mem_nil
  | @cons field value fields values _ _ ih =>
    rw [wire, List.length_append] at hlen
    intro data hmem
    rcases List.mem_cons.1 hmem with rfl | hmem
    · rw [wireField, wireValue, List.length_append, List.length_append] at hlen
      omega
    · exact ih (by omega) data hmem

/-! ### The serializer's buffer -/

theorem orElse_ok {α β : Type} (a : α) (no : PbM β) (yes : α → PbM β) :
    orElse (.ok a) no yes = yes a := rfl

theorem mblueMalloc_some (g : ℕ → UInt8) {size : ℕ} (hsize : size + 15 < 2 ^ 32) :
    ∃ block, mblueMalloc (some g) size = .ok (some block) ∧ size ≤ block.length := by
  have hle : ¬ mblueAlign size < size := by
    rw [mblueAlign]
    omega
  refine ⟨_, if_neg hle, ?_⟩
  rw [List.length_append, List.length_replicate]
  exact Nat.le_add_right _ _

/-- The size of a layout's struct, as the serializer takes it. -/
def wireSize (schema : Option (List PbField)) (src : List (PbValue (List UInt8))) : ℕ :=
  match schema with
  | none => 0
  | some fields => (wire fields src).length

/-- The sum behind `buffer_size`. -/
def requestSize (junk : UInt8) (method : List UInt8) (index : ℕ) (schema : Option (List PbField))
    (src : List (PbValue (List UInt8))) : ℕ :=
  (wire dlRpcHeaderFields (rpcHeader method junk index)).length + 4 +
    bodyRoom (wireSize schema src)

theorem wireSize_lt {junk : UInt8} {method : List UInt8} {index : ℕ}
    {schema : Option (List PbField)} {src : List (PbValue (List UInt8))}
    (h : requestSize junk method index schema src + 15 < 2 ^ 32) :
    wireSize schema src < 2 ^ 32 := by
  rw [requestSize, bodyRoom] at h
  split at h <;> omega

/-- What the serializer needs to know of a layout and its struct. -/
theorem schema_of_layoutFits {index : ℕ} {src : List (PbValue (List UInt8))}
    (hindex : index < pbMax) (hfit : LayoutFits index src) :
    ∃ schema, mbluePbDataLayoutGet index = .ok schema ∧
      (∀ fields, schema = some fields → List.Forall₂ Typed fields src) ∧
      ∀ fields, schema = some fields → ∀ f ∈ fields, f.tag < 2 ^ 28 := by
  rcases layout_cases hindex with ⟨hlayout, -⟩ | ⟨fields, hcons, -, hlayout, -⟩
  · exact ⟨none, hlayout, fun _ h ↦ (Option.some_ne_none _ h.symm).elim,
      fun _ h ↦ (Option.some_ne_none _ h.symm).elim⟩
  · rw [LayoutFits, hlayout] at hfit
    exact ⟨some fields, hlayout, fun _ h ↦ Option.some.inj h ▸ typed_of_fits hfit,
      fun _ h ↦ Option.some.inj h ▸ hcons.tag_lt⟩

section Body

variable {schema : Option (List PbField)} {src : List (PbValue (List UInt8))}
  (htyped : ∀ fields, schema = some fields → List.Forall₂ Typed fields src)
  (htags : ∀ fields, schema = some fields → ∀ f ∈ fields, f.tag < 2 ^ 28)
include htyped htags

theorem dataSize_eq (hlen : wireSize schema src < 2 ^ 32) :
    (match schema with
      | some fields => pbGetEncodedSize mbluePbWriteBytes fields src
      | none => pure 0) = .ok (wireSize schema src) := by
  rcases schema with _ | fields
  · rfl
  · have hcount := countable_of_wire (htyped fields rfl) hlen
    have hlen' : (wire fields src).length < 2 ^ 32 := hlen
    dsimp only
    rw [pbGetEncodedSize_eq (htyped fields rfl),
      flatten_structPieces (htyped fields rfl) hcount (htags fields rfl), Nat.mod_eq_of_lt hlen']
    rfl

theorem HasRoom.body (hlen : wireSize schema src < 2 ^ 32)
    (h : HasRoom s (wireBody schema src).length) :
    ∃ t, (match schema with
      | some fields => Mblue.pbEncodeSubmessage mbluePbWriteBytes s fields src
      | none => pure s) = .ok t := by
  rcases schema with _ | fields
  · exact ⟨s, rfl⟩
  · have hcount := countable_of_wire (htyped fields rfl) hlen
    rw [wireBody, List.length_append, ← Nat.add_zero (_ + _)] at h
    obtain ⟨t, ht, -⟩ := h.pbEncodeSubmessage (htyped fields rfl) hcount (htags fields rfl)
    exact ⟨t, ht⟩

omit htyped htags in
/-- The four bytes for each part cover the two length prefixes. -/
theorem length_wireBody_le (hlen : wireSize schema src < 2 ^ 32) :
    (wireBody schema src).length ≤ bodyRoom (wireSize schema src) + 1 := by
  rcases schema with _ | fields
  · exact Nat.zero_le _
  · have hlen' : (wire fields src).length < 2 ^ 32 := hlen
    have hvar : (Varint.encode (wire fields src).length).length ≤ 5 :=
      Varint.length_encode_le (by decide) (hlen'.trans (by decide))
    rw [wireBody, wireSize, bodyRoom, List.length_append]
    split
    · next hzero =>
      rw [hzero, Varint.encode_of_lt (by decide)]
      exact le_refl 1
    · omega

end Body

/-- **The serializer never runs out of room**: where the sizes are below that of the address space
and there is memory, it returns a block. -/
theorem exists_mblueSerializeIpc (g : ℕ → UInt8) (junk : UInt8) (method : List UInt8) {index : ℕ}
    {src : List (PbValue (List UInt8))} {schema : Option (List PbField)}
    (hschema : mbluePbDataLayoutGet index = .ok schema)
    (htyped : ∀ fields, schema = some fields → List.Forall₂ Typed fields src)
    (htags : ∀ fields, schema = some fields → ∀ f ∈ fields, f.tag < 2 ^ 28)
    (hroom : requestSize junk method index schema src + 15 < 2 ^ 32) :
    ∃ block, mblueSerializeIpc (some g) junk method index src = .ok ⟨some block, 0⟩ := by
  have hheader := typed_rpcHeader method junk index
  have hsmall := length_wire_rpcHeader method junk index
  have hcountH : Countable (rpcHeader method junk index) :=
    countable_of_wire hheader (hsmall.trans (by decide))
  have htagsH : ∀ f ∈ dlRpcHeaderFields, f.tag < 2 ^ 28 := by decide
  have hlen := wireSize_lt hroom
  rw [requestSize] at hroom
  have hsizeH := pbGetEncodedSize_eq hheader
  rw [flatten_structPieces hheader hcountH htagsH,
    Nat.mod_eq_of_lt (hsmall.trans (by decide))] at hsizeH
  generalize hH : wire dlRpcHeaderFields (rpcHeader method junk index) = H at *
  have hone : (Varint.encode H.length).length = 1 := by
    rw [Varint.encode_of_lt hsmall]
    rfl
  have hbodyLe : (wireBody schema src).length ≤ bodyRoom (wireSize schema src) + 1 :=
    length_wireBody_le hlen
  generalize hsize : H.length + 4 + bodyRoom (wireSize schema src) = bufferSize at *
  obtain ⟨buffer, hmalloc, hbuffer⟩ := mblueMalloc_some g hroom
  have hmod : bufferSize % 2 ^ 32 = bufferSize := Nat.mod_eq_of_lt (by omega)
  have hstream : HasRoom (pbOstreamFromBuffer buffer bufferSize)
      ((Varint.encode H.length).length + H.length + (wireBody schema src).length) := by
    rw [hone]
    exact ⟨rfl, by show bufferSize < 2 ^ 32; omega, by show 0 + _ ≤ bufferSize; omega,
      by show 0 + _ ≤ buffer.length; omega⟩
  obtain ⟨t, ht, hroomT⟩ := HasRoom.pbEncodeSubmessage hheader hcountH htagsH (hH ▸ hstream)
  obtain ⟨u, hu⟩ := hroomT.body htyped htags hlen
  refine ⟨u.block, ?_⟩
  have hsum : H.length + 4 + (if wireSize schema src = 0 then 0 else wireSize schema src + 4) =
    bufferSize := hsize
  rw [mblueSerializeIpc, hschema, ok_bind]
  dsimp only
  rw [hsizeH, orElse_ok]
  refine (congrArg (orElse · _ _) (dataSize_eq htyped htags hlen)).trans ?_
  rw [orElse_ok, hsum, hmod, hmalloc, ok_bind]
  dsimp only
  rw [ht, orElse_ok]
  exact congrArg (orElse · _ _) hu

/-- **The block is the allocation of `buffer_size` bytes.** -/
theorem exists_mblueMalloc {memory : Option (ℕ → UInt8)} {junk : UInt8} {method : List UInt8}
    {index frees : ℕ} {src : List (PbValue (List UInt8))} {block : List UInt8}
    {schema : Option (List PbField)} (hschema : mbluePbDataLayoutGet index = .ok schema)
    (htyped : ∀ fields, schema = some fields → List.Forall₂ Typed fields src)
    (htags : ∀ fields, schema = some fields → ∀ f ∈ fields, f.tag < 2 ^ 28)
    (hroom : requestSize junk method index schema src + 15 < 2 ^ 32)
    (h : mblueSerializeIpc memory junk method index src = .ok ⟨some block, frees⟩) :
    ∃ buffer, mblueMalloc memory (requestSize junk method index schema src) = .ok (some buffer) ∧
      block.length = buffer.length := by
  have hheader := typed_rpcHeader method junk index
  have htagsH : ∀ f ∈ dlRpcHeaderFields, f.tag < 2 ^ 28 := by decide
  have hsmall := length_wire_rpcHeader method junk index
  obtain ⟨headerSize, dataSize, buffer, s, t, hhs, hds, hm, hs, ht, rfl, -⟩ :=
    mblueSerializeIpc_eq_some hschema h
  obtain ⟨slack, -, hlt, -⟩ := length_mblueMalloc hm
  obtain ⟨-, hwire, hhead⟩ := wrote_of_pbEncodeSubmessage hheader htagsH rfl hlt hs
  have hbody := (wrote_body htyped htags hhead rfl hlt hds ht).1
  rw [pbGetEncodedSize_eq hheader, hwire, Nat.mod_eq_of_lt (hsmall.trans (by decide)),
    Except.ok.injEq] at hhs
  obtain rfl := Except.ok.inj (hds.symm.trans (dataSize_eq htyped htags (wireSize_lt hroom)))
  rw [← hhs, ← requestSize, Nat.mod_eq_of_lt (by omega)] at hm
  exact ⟨buffer, hm, hbody.length_block⟩

end Mblue
