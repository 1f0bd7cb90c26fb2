import Mblue.Schema.EncodingRoom

/-!
# Serialized requests

Two properties of the block that `mblue_serialize_ipc` returns. It is always large enough, and a
zero byte of the allocation follows what is written, so that data that is read as a C string ends
inside the block. And its header holds the method name, as long as the name is shorter than
`MAX_IPC_METHOD_NAME_LENGTH`: a name of exactly that length leaves no terminator in the 32 bytes of
`header.method_name`, whose last byte is whatever the stack held.
-/

namespace Mblue

variable {block rest : List UInt8} {fields : List PbField} {src : List (PbValue (List UInt8))}
  {dest : List (PbValue MblueByteBundler)} {index : ℕ} {method : List UInt8}

/-! ### Data as a C string -/

/-- Only the last member of the layout is data. -/
def DataLast (fields : List PbField) : Prop := ∀ f ∈ fields.dropLast, f.atype = .static

/-- The data of a struct whose last member it is lies in front of what follows the struct. -/
theorem StructDecoded.drop_eq (hfit : List.Forall₂ Fits fields src) (hlast : DataLast fields)
    (h : StructDecoded block rest fields src dest) {b : MblueByteBundler}
    (hb : .callback b ∈ dest) :
    ∃ off data, b = ⟨data.length, .block off⟩ ∧ .callback data ∈ src ∧
      block.drop off = data ++ rest := by
  induction hfit generalizing dest with
  | nil => rw [show dest = [] from h] at hb; exact absurd hb List.not_mem_nil
  | @cons field value fields src hf hfs ih =>
    obtain ⟨d, ds, rfl, hd, hds⟩ := h
    have htail : DataLast fields := fun f hmem ↦ by
      rcases fields with _ | ⟨next, fields⟩
      · exact absurd hmem List.not_mem_nil
      · exact hlast f (List.mem_cons_of_mem field hmem)
    rcases List.mem_cons.1 hb with rfl | hb
    · -- a data member has no member behind it
      have hnil : fields = [] := by
        rcases fields with _ | ⟨next, fields⟩
        · rfl
        · have hstatic : field.atype = .static := hlast field List.mem_cons_self
          obtain ⟨tag, v⟩ | ⟨tag, size, bytes, hsize, hlen⟩ | ⟨tag, data⟩ | ⟨tag, data⟩ := hf
          · cases hd
          · obtain ⟨n, hn⟩ := hd
            cases hn
          · cases hstatic
          · cases hstatic
      subst hnil
      obtain ⟨tag, v⟩ | ⟨tag, size, bytes, hsize, hlen⟩ | ⟨tag, data⟩ | ⟨tag, data⟩ := hf
      · cases hd
      · obtain ⟨n, hn⟩ := hd
        cases hn
      all_goals
        obtain ⟨off, hb, hoff⟩ := hd
        exact ⟨off, data, PbValue.callback.inj hb, List.mem_cons_self, hoff⟩
    · obtain ⟨off, data, hbundle, hmem, hoff⟩ := ih htail hds hb
      exact ⟨off, data, hbundle, List.mem_cons_of_mem _ hmem, hoff⟩

/-- A pointer among a handler's arguments is that of a data member. -/
theorem pointer_mem_handlerArgs {p : BytePtr} (h : .pointer p ∈ handlerArgs (dataArgs index) dest) :
    ∃ b, .callback b ∈ dest ∧ p = b.byte := by
  induction dest with
  | nil => exact absurd h List.not_mem_nil
  | cons d ds ih =>
    rcases d with v | bytes | b
    · rw [handlerArgs, List.mem_cons] at h
      obtain ⟨b, hb, hp⟩ := ih (h.resolve_left (by simp))
      exact ⟨b, List.mem_cons_of_mem _ hb, hp⟩
    · obtain ⟨b, hb, hp⟩ := ih h
      exact ⟨b, List.mem_cons_of_mem _ hb, hp⟩
    · rw [handlerArgs, List.mem_append] at h
      rcases h with h | h
      · refine ⟨b, List.mem_cons_self, ?_⟩
        rw [dataArgs] at h
        split at h
        · exact HandlerArg.pointer.inj (List.mem_singleton.1 h)
        · rw [bytesAndLen, List.mem_cons, List.mem_singleton] at h
          exact HandlerArg.pointer.inj (h.resolve_right (by simp))
      · obtain ⟨b', hb, hp⟩ := ih h
        exact ⟨b', List.mem_cons_of_mem _ hb, hp⟩

theorem dataLast_of_layout (h : mbluePbDataLayoutGet index = .ok (some fields)) :
    DataLast fields := by
  have hall : ∀ l ∈ mbluePbDataLayoutArray, ∀ fields ∈ l.field, DataLast fields := by
    simp only [DataLast]
    decide
  rw [mbluePbDataLayoutGet] at h
  split at h
  · next l hl => exact hall l (List.mem_of_getElem? hl) fields (Except.ok.inj h)
  · cases h

/-- The C string at the data is terminated inside the block, and is the data when that has no zero
byte of its own. -/
theorem cStringAt_data {data : List UInt8} {off : ℕ} (h : block.drop off = data ++ 0 :: rest) :
    ∃ text, cStringAt block off = some text ∧ (0 ∉ data → text = data) := by
  refine ⟨(block.drop off).takeWhile (· ≠ 0), ?_, fun hnul ↦ ?_⟩
  · rw [cStringAt, if_pos]
    rw [h]
    exact List.mem_append_right _ List.mem_cons_self
  · have hstring := cStringAt_of_drop hnul h
    rw [cStringAt, if_pos (by rw [h]; exact List.mem_append_right _ List.mem_cons_self)] at hstring
    exact Option.some.inj hstring

/-- What `mblue_serialize_ipc` writes. -/
def requestBytes (junk : UInt8) (method : List UInt8) (index : ℕ) (schema : Option (List PbField))
    (src : List (PbValue (List UInt8))) : List UInt8 :=
  Varint.encode (wire dlRpcHeaderFields (rpcHeader method junk index)).length ++
    wire dlRpcHeaderFields (rpcHeader method junk index) ++ wireBody schema src

/-- The buffer is larger than what is written to it. -/
theorem length_requestBytes_lt {junk : UInt8} {schema : Option (List PbField)}
    (hlen : wireSize schema src < 2 ^ 32) :
    (requestBytes junk method index schema src).length <
      requestSize junk method index schema src := by
  have hbody : (wireBody schema src).length ≤ bodyRoom (wireSize schema src) + 1 :=
    length_wireBody_le hlen
  have hone : (Varint.encode (wire dlRpcHeaderFields (rpcHeader method junk index)).length).length
      = 1 := by
    rw [Varint.encode_of_lt (length_wire_rpcHeader method junk index)]
    rfl
  rw [requestBytes, requestSize, List.length_append, List.length_append, hone]
  omega

/-- **Serialized requests fit and are terminated.** The serializer returns the block that `mblue_malloc`
made for the computed size, of which it has written less; the byte behind is 0; and every data pointer
that a handler is called with reads as a C string that ends inside the block. -/
theorem serialized_terminated (g : ℕ → UInt8) (junk : UInt8) {schema : Option (List PbField)}
    (hindex : index < pbMax) (hmethod : 0 ∉ method) (hlen : method.length < maxIpcMethodNameLength)
    (hfit : LayoutFits index src) (hschema : mbluePbDataLayoutGet index = .ok schema)
    (hroom : requestSize junk method index schema src + 15 < 2 ^ 32) :
    ∃ block rest, mblueSerializeIpc (some g) junk method index src = .ok ⟨some block, 0⟩ ∧
      block = requestBytes junk method index schema src ++ 0 :: rest ∧
      (∃ buffer, mblueMalloc (some g) (requestSize junk method index schema src) =
        .ok (some buffer) ∧ block.length = buffer.length) ∧
      (requestBytes junk method index schema src).length <
        requestSize junk method index schema src ∧
      ∀ ipcFunc, ipcFunc ≠ 0 → ∃ args,
        readRequest (some block) ipcFunc = .ok (.parsed (.call args)) ∧
        ∀ p, .pointer p ∈ args → ∃ off data text, p = .block off ∧ .callback data ∈ src ∧
          cStringAt block off = some text ∧ (0 ∉ data → text = data) := by
  have hwire : wireSize schema src < 2 ^ 32 := wireSize_lt hroom
  have hsrc : ∀ fields, schema = some fields → List.Forall₂ Fits fields src := by
    rintro fields rfl
    rw [LayoutFits, hschema] at hfit
    exact hfit
  obtain ⟨schema', hschema', htyped, htags⟩ := schema_of_layoutFits hindex hfit
  obtain rfl := Except.ok.inj (hschema.symm.trans hschema')
  obtain ⟨block, hser⟩ := exists_mblueSerializeIpc g junk method hschema htyped htags hroom
  obtain ⟨-, -, -, rest, hblock⟩ := mblueSerializeIpc_some hschema htyped htags hser
  refine ⟨block, rest, hser, hblock, exists_mblueMalloc hschema htyped htags hroom hser,
    length_requestBytes_lt hwire, fun ipcFunc hfunc ↦ ?_⟩
  obtain ⟨schema', rest', args, hschema'', -, hread, hcalled⟩ :=
    readRequest_decodes hindex hmethod hlen hfit hser hfunc
  obtain rfl := Except.ok.inj (hschema.symm.trans hschema'')
  refine ⟨args, hread, fun p hp ↦ ?_⟩
  rcases schema with _ | fields
  · rw [show args = [] from hcalled] at hp
    exact absurd hp List.not_mem_nil
  · obtain ⟨dest, rfl, hdec⟩ := hcalled
    obtain ⟨b, hb, rfl⟩ := pointer_mem_handlerArgs hp
    obtain ⟨off, data, rfl, hmem, hoff⟩ :=
      hdec.drop_eq (hsrc fields rfl) (dataLast_of_layout hschema) hb
    obtain ⟨text, htext, heq⟩ := cStringAt_data hoff
    exact ⟨off, data, text, rfl, hmem, htext, heq⟩

/-- The struct of a log line of one character. -/
def logLine : List (PbValue (List UInt8)) := [.int32 1, .callback [0x61]]

theorem requestSize_logLine (junk : UInt8) :
    requestSize junk [0x77] 3 (some dl12Fields) logLine + 15 < 2 ^ 32 := by
  have hheader := length_wire_rpcHeader [0x77] junk 3
  have hnum : ∀ n, n < 2 ^ 64 → (Varint.encode n).length ≤ 10 := fun n hn ↦ length_encode_lt hn
  have htag₁ := hnum (1 <<< 3 ||| PbLtype.varint.wireType) (by decide)
  have hone := hnum ((1 : BitVec 32).signExtend 64).toNat (BitVec.isLt _)
  have htag₂ := hnum (2 <<< 3 ||| PbLtype.bytes.wireType) (by decide)
  have hlen := hnum [(0x61 : UInt8)].length (by decide)
  have hwire : wireSize (some dl12Fields) logLine ≤ 41 := by
    simp only [wireSize, dl12Fields, logLine, wire, wireField, wireValue, int32Field, bytesField,
      List.length_append, List.length_nil]
    rw [List.length_singleton] at hlen ⊢
    omega
  rw [requestSize, bodyRoom]
  split <;> omega

theorem serialized_terminated_log : ∃ block rest,
    mblueSerializeIpc (some fun _ ↦ 0) 7 [0x77] 3 logLine = .ok ⟨some block, 0⟩ ∧
      block = requestBytes 7 [0x77] 3 (some dl12Fields) logLine ++ 0 :: rest ∧
      (∃ buffer, mblueMalloc (some fun _ ↦ 0) (requestSize 7 [0x77] 3 (some dl12Fields) logLine) =
        .ok (some buffer) ∧ block.length = buffer.length) ∧
      (requestBytes 7 [0x77] 3 (some dl12Fields) logLine).length <
        requestSize 7 [0x77] 3 (some dl12Fields) logLine ∧
      ∀ ipcFunc, ipcFunc ≠ 0 → ∃ args,
        readRequest (some block) ipcFunc = .ok (.parsed (.call args)) ∧
        ∀ p, .pointer p ∈ args → ∃ off data text, p = .block off ∧ .callback data ∈ logLine ∧
          cStringAt block off = some text ∧ (0 ∉ data → text = data) :=
  serialized_terminated (fun _ ↦ 0) 7 (by decide) (by decide) (by decide)
    (show List.Forall₂ Fits dl12Fields logLine from
      .cons (.int32 1 1) (.cons (.bytes 2 [0x61]) .nil)) rfl (requestSize_logLine 7)

end Mblue
