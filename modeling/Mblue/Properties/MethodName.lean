import Mblue.Schema.EncodingRoom

/-!
# Method names in the header

`mblue_serialize_ipc` admits names of up to `MAX_IPC_METHOD_NAME_LENGTH` characters and copies as
many with `strncpy`. A name of exactly that length is not terminated by the copy: the last byte of
`header.method_name` stays what the stack held, and the encoder counts it unless it is zero. The
serialized bytes then depend on it, and 32 characters do not fit the decoder's array.
-/

namespace Mblue

variable {method : List UInt8} {index : ℕ} {src : List (PbValue (List UInt8))}

/-- The header of a block decodes to a name and an index. -/
def HeaderDecodes (block method : List UInt8) (index : ℕ) : Prop :=
  ∃ chars stream, pbDecodeDelimited mbluePbGetBytesPointer
      (pbIstreamFromBuffer block (2 ^ 32 - 1)) dlRpcHeaderFields =
        .ok ([.chars chars, .int32 (BitVec.ofNat 32 index)], stream) ∧
    cStringAt chars 0 = some method

/-- Every serialized request of a method and a layout holds the name and the index, and no byte of it
depends on the initial content of `header`. -/
structure NameSurvives (method : List UInt8) (index : ℕ) : Prop where
  decodes : ∀ src, LayoutFits index src → ∀ memory junk block frees,
    mblueSerializeIpc memory junk method index src = .ok ⟨some block, frees⟩ →
      HeaderDecodes block method index
  same : ∀ src, LayoutFits index src → ∀ memory junk junk',
    mblueSerializeIpc memory junk method index src =
      mblueSerializeIpc memory junk' method index src

/-! ### Names that are terminated -/

/-- The encoder writes the same header whatever is behind the terminator. -/
theorem pbEncode_rpcHeader (hmethod : 0 ∉ method) (hlen : method.length < maxIpcMethodNameLength)
    (junk junk' : UInt8) (s : PbOstream) :
    pbEncode mbluePbWriteBytes s dlRpcHeaderFields (rpcHeader method junk index) =
      pbEncode mbluePbWriteBytes s dlRpcHeaderFields (rpcHeader method junk' index) := by
  have hpieces : structPieces dlRpcHeaderFields (rpcHeader method junk index) =
      structPieces dlRpcHeaderFields (rpcHeader method junk' index) := by
    simp only [structPieces, dlRpcHeaderFields, rpcHeader, pieces,
      charsOf_methodName junk hmethod hlen, charsOf_methodName junk' hmethod hlen]
  rw [pbEncode_eq_foldlM (typed_rpcHeader method junk index),
    pbEncode_eq_foldlM (typed_rpcHeader method junk' index), hpieces]

theorem mblueSerializeIpc_junk (hmethod : 0 ∉ method)
    (hlen : method.length < maxIpcMethodNameLength) (memory : Option (ℕ → UInt8))
    (junk junk' : UInt8) : mblueSerializeIpc memory junk method index src =
      mblueSerializeIpc memory junk' method index src := by
  have hsize : pbGetEncodedSize mbluePbWriteBytes dlRpcHeaderFields (rpcHeader method junk index) =
      pbGetEncodedSize mbluePbWriteBytes dlRpcHeaderFields (rpcHeader method junk' index) := by
    rw [pbGetEncodedSize, pbEncode_rpcHeader hmethod hlen junk junk', pbGetEncodedSize]
  have hwrite : ∀ s, pbEncodeSubmessage mbluePbWriteBytes s dlRpcHeaderFields
      (rpcHeader method junk index) = pbEncodeSubmessage mbluePbWriteBytes s dlRpcHeaderFields
        (rpcHeader method junk' index) := fun s ↦ by
    simp only [pbEncodeSubmessage, pbEncode_rpcHeader hmethod hlen junk junk']
  simp only [mblueSerializeIpc, hsize, hwrite]

theorem headerDecodes_serialize (hmethod : 0 ∉ method)
    (hlen : method.length < maxIpcMethodNameLength) (hindex : index < pbMax)
    (hfit : LayoutFits index src) {memory : Option (ℕ → UInt8)} {junk : UInt8}
    {block : List UInt8} {frees : ℕ}
    (h : mblueSerializeIpc memory junk method index src = .ok ⟨some block, frees⟩) :
    HeaderDecodes block method index := by
  obtain ⟨schema, hschema, htyped, htags⟩ := schema_of_layoutFits hindex hfit
  obtain ⟨-, hlt, -, rest, hblock⟩ := mblueSerializeIpc_some hschema htyped htags h
  have hconsH : Consecutive dlRpcHeaderFields := by
    rw [Consecutive]
    decide
  obtain ⟨dest, hdest, hdec⟩ := pbDecodeDelimited_block hconsH
    (fits_rpcHeader junk hmethod hlen index)
    (countable_of_wire (typed_rpcHeader method junk index)
      ((length_wire_rpcHeader method junk index).trans (by decide))) hlt
    (hblock.trans (List.append_assoc _ _ _))
  obtain ⟨d₁, ds₁, rfl, ⟨n, hd₁⟩, d₂, ds₂, rfl, hd₂, hds₂⟩ := hdec
  rw [hd₁, show d₂ = .int32 (BitVec.ofNat 32 index) from hd₂, show ds₂ = [] from hds₂,
    charsOf_methodName junk hmethod hlen] at hdest
  have hdrop : (method ++ List.replicate (n + 1) 0).drop 0 = method ++ 0 :: List.replicate n 0 := by
    rw [List.drop_zero, List.replicate_succ]
  exact ⟨_, _, hdest, cStringAt_of_drop hmethod hdrop⟩

/-! ### Names of the full length -/

/-- A name of the full length is followed by the last byte of the array. -/
theorem charsOf_methodName_full (hmethod : 0 ∉ method)
    (hlen : method.length = maxIpcMethodNameLength) (junk : UInt8) :
    charsOf ⟨1, .string, .static, 32⟩ (methodName method junk) =
      method ++ if junk = 0 then [] else [junk] := by
  have hall : ∀ b ∈ method, decide (b ≠ 0) = true := fun b hb ↦ by
    rw [decide_eq_true_eq]
    rintro rfl
    exact hmethod hb
  have hname : methodName method junk = method ++ [junk] := by
    rw [methodName, ← hlen, List.take_left]
  have hcut : (method ++ [junk]).take 32 = method ++ [junk] := by
    refine List.take_of_length_le ?_
    rw [List.length_append, hlen]
    exact le_refl 32
  rw [charsOf, hname]
  dsimp only
  rw [hcut, List.takeWhile_append_of_pos hall]
  split
  · next hzero => rw [hzero]; rfl
  · next hne =>
    rw [List.takeWhile_cons_of_pos (p := fun b ↦ decide (b ≠ 0)) (decide_eq_true hne),
      List.takeWhile_nil]

/-- The last byte of the array makes the header one byte longer. -/
theorem length_wire_full (index : ℕ) (hmethod : 0 ∉ method)
    (hlen : method.length = maxIpcMethodNameLength) :
    (wire dlRpcHeaderFields (rpcHeader method 1 index)).length =
      (wire dlRpcHeaderFields (rpcHeader method 0 index)).length + 1 := by
  have hone : ∀ n, n < 128 → (Varint.encode n).length = 1 := fun n hn ↦ by
    rw [Varint.encode_of_lt hn]
    rfl
  have hlen' : method.length = 31 := hlen
  have hzero := charsOf_methodName_full hmethod hlen 0
  have hjunk := charsOf_methodName_full hmethod hlen 1
  rw [if_pos rfl, List.append_nil] at hzero
  rw [if_neg (by decide)] at hjunk
  have hprefix₀ := hone method.length (by omega)
  have hprefix₁ := hone (method.length + 1) (by omega)
  simp only [wire, dlRpcHeaderFields, rpcHeader, wireField, wireValue, hzero, hjunk,
    List.length_append, List.length_singleton, hprefix₀, hprefix₁]
  omega

/-! ### A struct for every layout -/

/-- Zero, or no data. -/
def zeroMember (field : PbField) : PbValue (List UInt8) :=
  match field.atype with
  | .static => .int32 0
  | .callback => .callback []

theorem fits_zeroMember {field : PbField} (h : field = int32Field field.tag ∨
    field = bytesField field.tag ∨ field = stringField field.tag) :
    Fits field (zeroMember field) := by
  rcases h with h | h | h
  · rw [h]
    exact .int32 _ _
  · rw [h]
    exact .bytes _ _
  · rw [h]
    exact .string _ _

theorem length_wire_zero_le (fields : List PbField) (htags : ∀ f ∈ fields, f.tag < 2 ^ 28) :
    (wire fields (fields.map zeroMember)).length ≤ 20 * fields.length := by
  induction fields with
  | nil => exact le_rfl
  | cons field fields ih =>
    have htail := ih fun f hf ↦ htags f (List.mem_cons_of_mem _ hf)
    have htag : (Varint.encode (field.tag <<< 3 ||| field.ltype.wireType)).length ≤ 10 := by
      have hwt := field.ltype.wireType_lt
      have hlt := htags field List.mem_cons_self
      exact length_encode_lt (by rw [tag_bounds _ hwt]; omega)
    have hvalue : (wireValue field (zeroMember field)).length ≤ 10 := by
      rw [zeroMember]
      split
      · exact length_encode_lt (BitVec.isLt _)
      · rw [wireValue, List.append_nil]
        exact length_encode_lt (by decide)
    rw [List.map_cons, wire, wireField, List.length_append, List.length_append, List.length_cons]
    omega

/-- Every layout has a struct that can be serialized. -/
theorem exists_layoutFits (hindex : index < pbMax) : ∃ src schema, LayoutFits index src ∧
    mbluePbDataLayoutGet index = .ok schema ∧ wireSize schema src ≤ 300 := by
  have hshape : ∀ l ∈ mbluePbDataLayoutArray, ∀ fields ∈ l.field, ∀ f ∈ fields,
      f = int32Field f.tag ∨ f = bytesField f.tag ∨ f = stringField f.tag := by
    decide
  rcases layout_cases hindex with ⟨hlayout, -⟩ | ⟨fields, hcons, -, hlayout, -⟩
  · refine ⟨[], none, ?_, hlayout, Nat.zero_le _⟩
    rw [LayoutFits, hlayout]
  · refine ⟨fields.map zeroMember, some fields, ?_, hlayout, ?_⟩
    · rw [LayoutFits, hlayout]
      refine List.forall₂_map_right_iff.2 (List.forall₂_same.2 fun f hf ↦ fits_zeroMember ?_)
      rw [mbluePbDataLayoutGet] at hlayout
      split at hlayout
      · next l hl =>
        exact hshape l (List.mem_of_getElem? hl) fields (Except.ok.inj hlayout) f hf
      · cases hlayout
    · have hle := length_wire_zero_le fields hcons.tag_lt
      have hfew := hcons.1
      rw [wireSize]
      omega

/-- A name of the full length does not survive. -/
theorem not_nameSurvives_full (hmethod : 0 ∉ method)
    (hfull : method.length = maxIpcMethodNameLength) (hindex : index < pbMax) :
    ¬ NameSurvives method index := by
  intro hsurvives
  obtain ⟨src, schema, hfit, hschema, hsmall⟩ := exists_layoutFits hindex
  obtain ⟨schema', hschema', htyped, htags⟩ := schema_of_layoutFits hindex hfit
  obtain rfl := Except.ok.inj (hschema.symm.trans hschema')
  have hser : ∀ junk, ∃ block rest,
      mblueSerializeIpc (some fun _ ↦ 0) junk method index src = .ok ⟨some block, 0⟩ ∧
        block = Varint.encode (wire dlRpcHeaderFields (rpcHeader method junk index)).length ++
          rest := fun junk ↦ by
    have hheader := length_wire_rpcHeader method junk index
    have hroom : requestSize junk method index schema src + 15 < 2 ^ 32 := by
      rw [requestSize, bodyRoom]
      split <;> omega
    obtain ⟨block, hblock⟩ :=
      exists_mblueSerializeIpc (fun _ ↦ 0) junk method hschema htyped htags hroom
    obtain ⟨-, -, -, rest, heq⟩ := mblueSerializeIpc_some hschema htyped htags hblock
    exact ⟨block, _, hblock, heq.trans ((List.append_assoc _ _ _).trans (List.append_assoc _ _ _))⟩
  obtain ⟨block₀, rest₀, hser₀, hblock₀⟩ := hser 0
  obtain ⟨block₁, rest₁, hser₁, hblock₁⟩ := hser 1
  -- the two blocks differ in their first byte, the length of the header
  have hsame := hsurvives.same src hfit (some fun _ ↦ 0) 0 1
  rw [hser₀, hser₁] at hsame
  obtain rfl : block₀ = block₁ :=
    Option.some.inj (congrArg Serialized.buffer (Except.ok.inj hsame))
  have h₀ := length_wire_rpcHeader method 0 index
  have h₁ := length_wire_rpcHeader method 1 index
  have hlonger := length_wire_full index hmethod hfull
  rw [Varint.encode_of_lt h₀] at hblock₀
  rw [Varint.encode_of_lt h₁, hblock₀, hlonger] at hblock₁
  have hfirst := congrArg UInt8.toNat (List.cons.inj hblock₁).1
  rw [UInt8.toNat_ofNat', UInt8.toNat_ofNat'] at hfirst
  omega

/-- **When a method name survives the header.** -/
theorem nameSurvives_iff (hmethod : 0 ∉ method) (hlen : method.length ≤ maxIpcMethodNameLength)
    (hindex : index < pbMax) :
    NameSurvives method index ↔ method.length < maxIpcMethodNameLength := by
  constructor
  · intro hsurvives
    exact lt_of_le_of_ne hlen fun hfull ↦ not_nameSurvives_full hmethod hfull hindex hsurvives
  · intro hshort
    exact ⟨fun src hfit memory junk block frees h ↦
      headerDecodes_serialize hmethod hshort hindex hfit h,
      fun src _ memory junk junk' ↦ mblueSerializeIpc_junk hmethod hshort memory junk junk'⟩

theorem nameSurvives_log : NameSurvives [0x6C, 0x6F, 0x67] 3 :=
  (nameSurvives_iff (by decide) (by decide) (by decide)).2 (by decide)

/-- With a name of 31 characters and 1 on the stack the header does not decode. -/
theorem not_nameSurvives_31 : ¬ NameSurvives (List.replicate 31 0x61) 0 ∧
    ∃ block, mblueSerializeIpc (some fun _ ↦ 0) 1 (List.replicate 31 0x61) 0 [] =
      .ok ⟨some block, 0⟩ ∧ readRequest (some block) 1 = .ok .headerFailed :=
  ⟨not_nameSurvives_full (by decide) rfl (by decide),
    [36, 10, 32] ++ List.replicate 31 0x61 ++ [1, 16, 0] ++ List.replicate 11 0,
    by decide, by decide⟩

end Mblue
