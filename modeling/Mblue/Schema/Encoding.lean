import Mblue.Schema.Decoding

/-!
# What the encoder writes

Encoding a struct is writing its wire bytes piece by piece (`pbEncode_eq_foldlM`). On a sizing
stream that only counts (`foldlM_pbWrite_sizing`); on a buffer, when it succeeds, the block holds
the bytes at the stream's position and is otherwise unchanged (`Wrote`). The two readings of the
same list of pieces are what ties the size computed first to the bytes written afterwards.

`mblueSerializeIpc_some` is the result: a block that `mblue_serialize_ipc` returns holds the
delimited header, the delimited struct, and at least one zero byte after them.
-/

namespace Mblue

/-! ### Varints -/

theorem group_eq (n : ℕ) : n &&& 0x7F ||| 0x80 = n % 128 + 128 := by
  have hlt : n % 128 < 2 ^ 7 := Nat.mod_lt n (by decide)
  have hor := Nat.two_pow_add_eq_or_of_lt hlt 1
  rw [Varint.and_low, Nat.or_comm]
  exact hor.symm.trans (Nat.add_comm _ _)

theorem last_group {n : ℕ} (h : n < 128) : UInt8.ofNat (n % 128 + 128) &&& 0x7F = UInt8.ofNat n := by
  refine UInt8.toNat_inj.1 ?_
  have hmask : (0x7F : UInt8).toNat = 0x7F := rfl
  rw [UInt8.toNat_and, hmask, Varint.and_low, Varint.toNat_more, Varint.toNat_last h]
  omega

/-- The encoder's loop writes the groups, each with its top bit set; clearing the last one's gives
the notation. -/
theorem varintGroups_spec {fuel n : ℕ} (hpos : 1 ≤ n) (hn : n < 128 ^ fuel) :
    varintGroups fuel n ≠ [] ∧
      (varintGroups fuel n).modify ((varintGroups fuel n).length - 1) (· &&& 0x7F) =
        Varint.encode n := by
  induction fuel generalizing n with
  | zero => omega
  | succ fuel ih =>
    have hshift : n >>> 7 = n / 128 := Nat.shiftRight_eq_div_pow n 7
    unfold varintGroups
    rw [if_neg (by omega), hshift, group_eq]
    refine ⟨List.cons_ne_nil _ _, ?_⟩
    rcases Nat.lt_or_ge n 128 with hlt | hge
    · have hnil : varintGroups fuel (n / 128) = [] := by
        rw [Nat.div_eq_of_lt hlt]
        cases fuel <;> rfl
      rw [hnil, Varint.encode_of_lt hlt, ← last_group hlt]
      rfl
    · have hdiv : n / 128 < 128 ^ fuel := by
        rw [Nat.div_lt_iff_lt_mul (by decide), ← pow_succ]
        exact hn
      obtain ⟨hne, heq⟩ := ih (n := n / 128) (by omega) hdiv
      obtain ⟨k, hk⟩ : ∃ k, (varintGroups fuel (n / 128)).length = k + 1 :=
        Nat.exists_eq_succ_of_ne_zero (fun h0 ↦ hne (List.length_eq_zero_iff.1 h0))
      rw [hk, Nat.add_sub_cancel] at heq
      rw [List.length_cons, Nat.add_sub_cancel, hk, List.modify_succ_cons, heq,
        Varint.encode_of_le hge]

theorem varintBytes_eq {n : ℕ} (hn : n < 2 ^ 64) : varintBytes n = Varint.encode n := by
  unfold varintBytes
  split
  · exact (Varint.encode_of_lt (by omega)).symm
  · exact (varintGroups_spec (by omega) (hn.trans (by decide))).2

/-! ### A struct is written in pieces -/

/-- A value of the field's C type; nothing is said about the terminator of a string. -/
inductive Typed : PbField → PbValue (List UInt8) → Prop
  | int32 (tag : ℕ) (v : BitVec 32) : Typed (int32Field tag) (.int32 v)
  | chars (tag size : ℕ) (bytes : List UInt8) (hsize : size < 2 ^ 32) :
      Typed ⟨tag, .string, .static, size⟩ (.chars bytes)
  | bytes (tag : ℕ) (data : List UInt8) : Typed (bytesField tag) (.callback data)
  | string (tag : ℕ) (data : List UInt8) : Typed (stringField tag) (.callback data)

theorem Fits.typed {field : PbField} {value : PbValue (List UInt8)} (h : Fits field value) :
    Typed field value := by
  obtain ⟨tag, v⟩ | ⟨tag, size, bytes, hsize, -⟩ | ⟨tag, data⟩ | ⟨tag, data⟩ := h
  · exact .int32 tag v
  · exact .chars tag size bytes hsize
  · exact .bytes tag data
  · exact .string tag data

theorem typed_of_fits {fields : List PbField} {values : List (PbValue (List UInt8))}
    (h : List.Forall₂ Fits fields values) : List.Forall₂ Typed fields values :=
  h.imp fun _ _ ↦ Fits.typed

/-- The encoder does not look behind the array. -/
theorem length_charsOf_le (field : PbField) (bytes : List UInt8) :
    (charsOf field bytes).length ≤ field.dataSize :=
  (List.takeWhile_prefix _).length_le.trans (List.length_take_le _ _)

/-- The writes a member consists of. -/
def pieces (field : PbField) : PbValue (List UInt8) → List (List UInt8)
  | .int32 v => [varintBytes (field.tag <<< 3 ||| field.ltype.wireType),
      varintBytes (v.signExtend 64).toNat]
  | .chars bytes => [varintBytes (field.tag <<< 3 ||| field.ltype.wireType),
      varintBytes ((charsOf field bytes).length % 2 ^ 32), charsOf field bytes]
  | .callback data => [varintBytes (field.tag <<< 3 ||| field.ltype.wireType),
      varintBytes (data.length % 2 ^ 32), data]

/-- The writes a struct consists of. -/
def structPieces : List PbField → List (PbValue (List UInt8)) → List (List UInt8)
  | field :: fields, value :: values => pieces field value ++ structPieces fields values
  | _, _ => []

theorem encodeField_eq_foldlM {field : PbField} {value : PbValue (List UInt8)}
    (htyped : Typed field value) (s : PbOstream) :
    encodeField mbluePbWriteBytes s field value = (pieces field value).foldlM pbWrite s := by
  cases htyped <;> simp only [pieces, List.foldlM_cons, List.foldlM_nil, bind_pure] <;> rfl

theorem pbEncode_eq_foldlM {fields : List PbField} {values : List (PbValue (List UInt8))}
    (htyped : List.Forall₂ Typed fields values) (s : PbOstream) :
    pbEncode mbluePbWriteBytes s fields values = (structPieces fields values).foldlM pbWrite s := by
  induction htyped generalizing s with
  | nil => rfl
  | cons hf _ ih =>
    unfold pbEncode structPieces
    rw [List.foldlM_append, encodeField_eq_foldlM hf]
    exact congrArg _ (funext ih)

/-- The data of a member is among the bytes written. -/
theorem length_le_structPieces {fields : List PbField} {values : List (PbValue (List UInt8))}
    (htyped : List.Forall₂ Typed fields values) {data : List UInt8} (hmem : .callback data ∈ values) :
    data.length ≤ (structPieces fields values).flatten.length := by
  induction htyped with
  | nil => cases hmem
  | @cons field value fields values _ _ ih =>
    rw [structPieces, List.flatten_append, List.length_append]
    rcases List.mem_cons.1 hmem with rfl | hmem
    · rw [pieces]
      simp only [List.flatten_cons, List.length_append]
      omega
    · have := ih hmem
      omega

/-- The pieces are the wire bytes, when every length is one a `size_t` holds. -/
theorem flatten_structPieces {fields : List PbField} {values : List (PbValue (List UInt8))}
    (htyped : List.Forall₂ Typed fields values) (hcount : Countable values)
    (htags : ∀ f ∈ fields, f.tag < 2 ^ 28) :
    (structPieces fields values).flatten = wire fields values := by
  induction htyped with
  | nil => rfl
  | @cons field value fields values hf _ ih =>
    have htag : varintBytes (field.tag <<< 3 ||| field.ltype.wireType) =
        Varint.encode (field.tag <<< 3 ||| field.ltype.wireType) := by
      have hwt := field.ltype.wireType_lt
      have := htags field List.mem_cons_self
      exact varintBytes_eq (by rw [tag_bounds _ hwt]; omega)
    have hlen : ∀ n : ℕ, n < 2 ^ 32 → varintBytes (n % 2 ^ 32) = Varint.encode n := fun n hn ↦ by
      rw [Nat.mod_eq_of_lt hn, varintBytes_eq (by omega)]
    have hpiece : (pieces field value).flatten = wireField field value := by
      cases hf with
      | int32 tag v =>
        rw [pieces, htag, varintBytes_eq (BitVec.isLt _)]
        simp only [List.flatten_cons, List.flatten_nil, List.append_nil]
        rfl
      | chars tag size bytes hsize =>
        rw [pieces, htag, hlen _ ((length_charsOf_le _ bytes).trans_lt hsize)]
        simp only [List.flatten_cons, List.flatten_nil, List.append_nil]
        rfl
      | bytes tag data | string tag data =>
        rw [pieces, htag, hlen _ (hcount data List.mem_cons_self)]
        simp only [List.flatten_cons, List.flatten_nil, List.append_nil]
        rfl
    rw [structPieces, List.flatten_append, hpiece, wire,
      ih (fun data hmem ↦ hcount data (List.mem_cons_of_mem _ hmem))
        fun f hf ↦ htags f (List.mem_cons_of_mem _ hf)]

/-! ### Sizing -/

theorem foldlM_pbWrite_sizing {ps : List (List UInt8)} {s : PbOstream} (hs : s.sizing = true)
    (hlt : s.bytesWritten < 2 ^ 32) :
    ps.foldlM pbWrite s =
      .ok { s with bytesWritten := (s.bytesWritten + ps.flatten.length) % 2 ^ 32 } := by
  induction ps generalizing s with
  | nil =>
    rw [List.flatten_nil, List.length_nil, Nat.add_zero, Nat.mod_eq_of_lt hlt]
    rfl
  | cons p ps ih =>
    have hwrite : pbWrite s p =
        .ok { s with bytesWritten := (s.bytesWritten + p.length) % 2 ^ 32 } := by
      unfold pbWrite
      simp only [hs, ↓reduceIte]
      rfl
    have hmod : (s.bytesWritten + p.length) % 2 ^ 32 < 2 ^ 32 := Nat.mod_lt _ (by decide)
    rw [List.foldlM_cons, hwrite, ok_bind,
      ih (s := { s with bytesWritten := (s.bytesWritten + p.length) % 2 ^ 32 }) hs hmod]
    simp only [Nat.mod_add_mod, List.flatten_cons, List.length_append, Nat.add_assoc]

/-- The computed size of a struct. -/
theorem pbEncode_sizing {fields : List PbField} {values : List (PbValue (List UInt8))}
    (htyped : List.Forall₂ Typed fields values) :
    pbEncode mbluePbWriteBytes pbOstreamSizing fields values = .ok { pbOstreamSizing with
      bytesWritten := (structPieces fields values).flatten.length % 2 ^ 32 } := by
  rw [pbEncode_eq_foldlM htyped, foldlM_pbWrite_sizing rfl (by decide)]
  simp only [pbOstreamSizing, Nat.zero_add]

theorem pbGetEncodedSize_eq {fields : List PbField} {values : List (PbValue (List UInt8))}
    (htyped : List.Forall₂ Typed fields values) :
    pbGetEncodedSize mbluePbWriteBytes fields values =
      .ok ((structPieces fields values).flatten.length % 2 ^ 32) := by
  unfold pbGetEncodedSize
  rw [pbEncode_sizing htyped]
  rfl

/-! ### Writing -/

/-- A sequence of calls that succeeds is a call that succeeds and a rest that does. -/
theorem bind_eq_ok {α β : Type} {x : PbM α} {f : α → PbM β} {b : β} (h : (x >>= f) = .ok b) :
    ∃ a, x = .ok a ∧ f a = .ok b := by
  cases x with
  | error e => cases h
  | ok a => exact ⟨a, rfl, h⟩

/-- The stream `t` comes from `s` by writing `bytes` into the block. -/
structure Wrote (s : PbOstream) (bytes : List UInt8) (t : PbOstream) : Prop where
  block : t.block = s.block.take s.state ++ bytes ++ s.block.drop (s.state + bytes.length)
  state : t.state = s.state + bytes.length
  inBlock : s.state + bytes.length ≤ s.block.length
  sizing : t.sizing = s.sizing

theorem Wrote.length_block {s t : PbOstream} {bytes : List UInt8} (h : Wrote s bytes t) :
    t.block.length = s.block.length := by
  have := h.inBlock
  rw [h.block]
  simp only [List.length_append, List.length_take, List.length_drop]
  omega

theorem Wrote.trans {s t u : PbOstream} {a b : List UInt8} (h₁ : Wrote s a t) (h₂ : Wrote t b u) :
    Wrote s (a ++ b) u := by
  have hin := h₁.inBlock
  have hfront : (s.block.take s.state ++ a).length = s.state + a.length := by
    rw [List.length_append, List.length_take]
    omega
  have htake : t.block.take t.state = s.block.take s.state ++ a := by
    rw [h₁.block, h₁.state, ← hfront, List.take_left]
  have hdrop : t.block.drop (t.state + b.length) =
      s.block.drop (s.state + (a ++ b).length) := by
    rw [h₁.block, h₁.state, List.length_append, ← hfront, ← List.drop_drop, List.drop_left,
      List.drop_drop, hfront, Nat.add_assoc]
  refine ⟨?_, ?_, ?_, h₂.sizing.trans h₁.sizing⟩
  · rw [h₂.block, htake, hdrop, List.append_assoc (s.block.take s.state)]
  · rw [h₂.state, h₁.state, List.length_append, Nat.add_assoc]
  · have := h₂.inBlock
    rw [h₁.length_block, h₁.state] at this
    rw [List.length_append]
    omega

theorem wrote_of_pbWrite {s t : PbOstream} {bytes : List UInt8} (hs : s.sizing = false)
    (h : pbWrite s bytes = .ok t) : Wrote s bytes t := by
  unfold pbWrite bufWrite at h
  simp only [hs, Bool.false_eq_true, ↓reduceIte] at h
  split at h
  · cases h
  · split at h
    · cases h
    · next hin =>
      simp only [pure_eq_ok, ok_bind, Except.ok.injEq] at h
      subst h
      exact ⟨rfl, rfl, by omega, hs.symm⟩

theorem wrote_of_foldlM {ps : List (List UInt8)} {s t : PbOstream} (hs : s.sizing = false)
    (hst : s.state ≤ s.block.length) (h : ps.foldlM pbWrite s = .ok t) : Wrote s ps.flatten t := by
  induction ps generalizing s with
  | nil =>
    simp only [List.foldlM_nil, pure_eq_ok, Except.ok.injEq] at h
    subst h
    refine ⟨?_, rfl, hst, rfl⟩
    rw [List.flatten_nil, List.append_nil, List.length_nil, Nat.add_zero, List.take_append_drop]
  | cons p ps ih =>
    rw [List.foldlM_cons] at h
    obtain ⟨u, hp, h⟩ := bind_eq_ok h
    have hu := wrote_of_pbWrite hs hp
    have hin : u.state ≤ u.block.length := by
      rw [hu.length_block, hu.state]
      exact hu.inBlock
    exact hu.trans (ih (hu.sizing.trans hs) hin h)

/-- **A delimited struct on a buffer**: the size computed first, then the struct. The block bounds
the data, so no size has wrapped around. -/
theorem wrote_of_pbEncodeSubmessage {fields : List PbField}
    {values : List (PbValue (List UInt8))} (htyped : List.Forall₂ Typed fields values)
    (htags : ∀ f ∈ fields, f.tag < 2 ^ 28) {s t : PbOstream} (hs : s.sizing = false)
    (hblock : s.block.length < 2 ^ 32)
    (h : pbEncodeSubmessage mbluePbWriteBytes s fields values = .ok t) :
    Countable values ∧ (structPieces fields values).flatten = wire fields values ∧
      Wrote s (Varint.encode (wire fields values).length ++ wire fields values) t := by
  unfold pbEncodeSubmessage at h
  rw [pbEncode_sizing htyped] at h
  generalize hP : (structPieces fields values).flatten = P at h ⊢
  simp only [ok_bind] at h
  have hsize : P.length % 2 ^ 32 < 2 ^ 64 := by omega
  unfold pbEncodeVarint at h
  rw [varintBytes_eq hsize] at h
  obtain ⟨u, hu, h⟩ := bind_eq_ok h
  have hwrote := wrote_of_pbWrite hs hu
  have husizing : u.sizing = false := hwrote.sizing.trans hs
  simp only [husizing, Bool.false_eq_true, ↓reduceIte] at h
  split at h
  · cases h
  · obtain ⟨v, hv, h⟩ := bind_eq_ok h
    rw [pbEncode_eq_foldlM htyped] at hv
    split at h
    · cases h
    · simp only [pure_eq_ok, Except.ok.injEq] at h
      subst h
      have hin : u.state ≤ u.block.length := by
        rw [hwrote.length_block, hwrote.state]
        exact hwrote.inBlock
      have hbody := wrote_of_foldlM (s := ⟨u.block, false, u.state, _, 0⟩) rfl hin hv
      rw [hP] at hbody
      have hall := hwrote.trans ⟨hbody.block, hbody.state, hbody.inBlock,
        hbody.sizing.trans husizing.symm⟩
      have hshort : P.length < 2 ^ 32 := by
        have := hall.inBlock
        rw [List.length_append] at this
        omega
      have hcount : Countable values := fun data hmem ↦
        (length_le_structPieces htyped hmem).trans_lt (hP ▸ hshort)
      have hwire : P = wire fields values := hP.symm.trans (flatten_structPieces htyped hcount htags)
      rw [Nat.mod_eq_of_lt hshort, hwire] at hall
      exact ⟨hcount, hwire, hall.block, hall.state, hall.inBlock, hall.sizing⟩

/-! ### The serialized request -/

theorem length_mblueMalloc {memory : Option (ℕ → UInt8)} {size : ℕ} {block : List UInt8}
    (h : mblueMalloc memory size = .ok (some block)) :
    ∃ slack, block = List.replicate size 0 ++ slack ∧ block.length < 2 ^ 32 ∧
      block.length ≤ size + 15 := by
  unfold mblueMalloc at h
  cases memory with
  | none => cases h
  | some g =>
    simp only at h
    split at h
    · cases h
    · next hge =>
      simp only [pure_eq_ok, Except.ok.injEq, Option.some.injEq] at h
      have hlen : block.length = mblueAlign size := by
        rw [← h, List.length_append, List.length_replicate, List.length_map, List.length_range]
        omega
      refine ⟨_, h.symm, ?_, ?_⟩
      · rw [hlen]
        unfold mblueAlign
        omega
      · rw [hlen]
        unfold mblueAlign
        omega

theorem orElse_eq_ok {α β : Type} {call : PbM α} {no : PbM β} {yes : α → PbM β} {b : β}
    (h : orElse call no yes = .ok b) (hno : no ≠ .ok b) : ∃ a, call = .ok a ∧ yes a = .ok b := by
  unfold orElse at h
  split at h
  · next a => exact ⟨a, rfl, h⟩
  · exact absurd h hno
  · cases h

/-- The member bytes of the header: the name, when it is short enough to be terminated. -/
theorem charsOf_methodName {method : List UInt8} (junk : UInt8) (hnul : 0 ∉ method)
    (hlen : method.length < maxIpcMethodNameLength) (tag : ℕ) :
    charsOf ⟨tag, .string, .static, 32⟩ (methodName method junk) = method := by
  have hlen' : method.length < 31 := hlen
  have hname : methodName method junk =
      method ++ 0 :: (List.replicate (30 - method.length) 0 ++ [junk]) := by
    unfold methodName maxIpcMethodNameLength
    rw [List.take_append, List.take_of_length_le (by omega), List.take_replicate,
      show min (31 - method.length) 31 = 30 - method.length + 1 by omega, List.replicate_succ]
    simp only [List.append_assoc, List.cons_append]
  have hall : ∀ b ∈ method, decide (b ≠ 0) = true := fun b hb ↦ by
    rw [decide_eq_true_eq]
    rintro rfl
    exact hnul hb
  have hcut : (methodName method junk).take 32 = methodName method junk := by
    refine List.take_of_length_le ?_
    rw [hname]
    simp only [List.length_append, List.length_cons, List.length_replicate, List.length_nil]
    omega
  unfold charsOf
  rw [hcut, hname, List.takeWhile_append_of_pos hall, List.takeWhile_cons_of_neg (by decide),
    List.append_nil]

theorem fits_rpcHeader {method : List UInt8} (junk : UInt8) (hnul : 0 ∉ method)
    (hlen : method.length < maxIpcMethodNameLength) (index : ℕ) :
    List.Forall₂ Fits dlRpcHeaderFields (rpcHeader method junk index) := by
  refine .cons (.chars 1 32 _ (by decide) ?_) (.cons (.int32 2 _) .nil)
  rw [charsOf_methodName junk hnul hlen]
  exact hlen.trans (by decide)

theorem typed_rpcHeader (method : List UInt8) (junk : UInt8) (index : ℕ) :
    List.Forall₂ Typed dlRpcHeaderFields (rpcHeader method junk index) :=
  .cons (.chars 1 32 _ (by decide)) (.cons (.int32 2 _) .nil)

theorem length_wire_rpcHeader (method : List UInt8) (junk : UInt8) (index : ℕ) :
    (wire dlRpcHeaderFields (rpcHeader method junk index)).length < 128 := by
  have hchars : (charsOf ⟨1, .string, .static, 32⟩ (methodName method junk)).length ≤ 32 :=
    length_charsOf_le _ _
  have hnum : ∀ v : BitVec 32, (Varint.encode (v.signExtend 64).toNat).length ≤ 10 := fun v ↦
    length_encode_lt (BitVec.isLt _)
  have hone : ∀ n, n < 128 → (Varint.encode n).length = 1 := fun n hn ↦ by
    rw [Varint.encode_of_lt hn]
    rfl
  have h := hnum (BitVec.ofNat 32 index)
  simp only [wire, dlRpcHeaderFields, rpcHeader, wireField, wireValue, List.length_append,
    List.length_nil, int32Field]
  rw [hone _ (by decide), hone _ (by omega), hone _ (by decide)]
  omega

/-- The delimited struct of a layout, nothing for a layout without data. -/
def wireBody (schema : Option (List PbField)) (src : List (PbValue (List UInt8))) : List UInt8 :=
  match schema with
  | none => []
  | some fields => Varint.encode (wire fields src).length ++ wire fields src

/-- What `mblue_serialize_ipc` adds to the buffer's size for the struct. -/
def bodyRoom (dataSize : ℕ) : ℕ := if dataSize = 0 then 0 else dataSize + 4

/-- The calls behind a serialization that returns a block. -/
theorem mblueSerializeIpc_eq_some {memory : Option (ℕ → UInt8)} {junk : UInt8}
    {method : List UInt8} {index frees : ℕ} {src : List (PbValue (List UInt8))}
    {block : List UInt8} {schema : Option (List PbField)}
    (hschema : mbluePbDataLayoutGet index = .ok schema)
    (h : mblueSerializeIpc memory junk method index src = .ok ⟨some block, frees⟩) :
    ∃ headerSize dataSize buffer s t,
      pbGetEncodedSize mbluePbWriteBytes dlRpcHeaderFields (rpcHeader method junk index) =
        .ok headerSize ∧
      (match schema with
        | some fields => pbGetEncodedSize mbluePbWriteBytes fields src
        | none => pure 0) = .ok dataSize ∧
      mblueMalloc memory ((headerSize + 4 + bodyRoom dataSize) % 2 ^ 32) = .ok (some buffer) ∧
      pbEncodeSubmessage mbluePbWriteBytes
        (pbOstreamFromBuffer buffer ((headerSize + 4 + bodyRoom dataSize) % 2 ^ 32))
        dlRpcHeaderFields (rpcHeader method junk index) = .ok s ∧
      (match schema with
        | some fields => pbEncodeSubmessage mbluePbWriteBytes s fields src
        | none => pure s) = .ok t ∧
      t.block = block ∧ frees = 0 := by
  unfold mblueSerializeIpc at h
  rw [hschema] at h
  simp only [ok_bind] at h
  obtain ⟨headerSize, hhs, h⟩ := orElse_eq_ok h (by intro hn; cases hn)
  obtain ⟨dataSize, hds, h⟩ := orElse_eq_ok h (by intro hn; cases hn)
  obtain ⟨b, hm, h⟩ := bind_eq_ok h
  cases b with
  | none => cases h
  | some buffer =>
    obtain ⟨s, hs, h⟩ := orElse_eq_ok h (by intro hn; cases hn)
    obtain ⟨t, ht, h⟩ := orElse_eq_ok h (by intro hn; cases hn)
    simp only [pure_eq_ok, Except.ok.injEq, Serialized.mk.injEq, Option.some.injEq] at h
    exact ⟨headerSize, dataSize, buffer, s, t, hhs, hds, hm, hs, ht, h.1, h.2.symm⟩

/-- The struct is written behind the header, and its length agrees with the size computed for it. -/
theorem wrote_body {schema : Option (List PbField)} {src : List (PbValue (List UInt8))}
    (htyped : ∀ fields, schema = some fields → List.Forall₂ Typed fields src)
    (htags : ∀ fields, schema = some fields → ∀ f ∈ fields, f.tag < 2 ^ 28)
    {o s t : PbOstream} {head : List UInt8} (hhead : Wrote o head s) (ho : o.sizing = false)
    (hblock : o.block.length < 2 ^ 32) {dataSize : ℕ}
    (hds : (match schema with
        | some fields => pbGetEncodedSize mbluePbWriteBytes fields src
        | none => pure 0) = .ok dataSize)
    (ht : (match schema with
        | some fields => pbEncodeSubmessage mbluePbWriteBytes s fields src
        | none => pure s) = .ok t) :
    Wrote o (head ++ wireBody schema src) t ∧
      (∀ fields, schema = some fields → Countable src ∧ (wire fields src).length < 2 ^ 32) ∧
      (wireBody schema src).length ≤ bodyRoom dataSize + 1 ∧
      bodyRoom dataSize ≤ (wireBody schema src).length + 4 := by
  unfold bodyRoom
  cases schema with
  | none =>
    simp only [pure_eq_ok, Except.ok.injEq] at ht hds
    subst ht hds
    refine ⟨?_, ?_, Nat.zero_le _, Nat.zero_le _⟩
    · rw [wireBody, List.append_nil]
      exact hhead
    · intro _ h
      cases h
  | some fields =>
    have hf := htyped fields rfl
    have hft := htags fields rfl
    simp only at ht hds
    have hs : s.block.length < 2 ^ 32 := hhead.length_block.trans_lt hblock
    obtain ⟨hcount, hwire, hw⟩ :=
      wrote_of_pbEncodeSubmessage hf hft (hhead.sizing.trans ho) hs ht
    have hb := hhead.trans hw
    have hshort : (wire fields src).length < 2 ^ 32 := by
      have hin := hw.inBlock
      rw [List.length_append] at hin
      omega
    have hvar : (Varint.encode (wire fields src).length).length ≤ 5 :=
      Varint.length_encode_le (by decide) (hshort.trans (by decide))
    rw [pbGetEncodedSize_eq hf, hwire, Nat.mod_eq_of_lt hshort, Except.ok.injEq] at hds
    refine ⟨hb, fun _ h ↦ Option.some.inj h ▸ ⟨hcount, hshort⟩, ?_⟩
    rw [hds] at hvar
    rw [wireBody, List.length_append, hds]
    split
    · next hzero =>
      -- there is no room for an empty struct, though its length prefix takes a byte
      rw [hzero, Varint.encode_of_lt (by decide)]
      exact ⟨le_refl 1, Nat.zero_le _⟩
    · exact ⟨by omega, by omega⟩

/-- **The serialized request.** A block that `mblue_serialize_ipc` returns starts with the delimited
header and the delimited struct, a zero byte follows, and the whole is smaller than a `size_t`. -/
theorem mblueSerializeIpc_some {memory : Option (ℕ → UInt8)} {junk : UInt8} {method : List UInt8}
    {index frees : ℕ} {src : List (PbValue (List UInt8))} {block : List UInt8}
    {schema : Option (List PbField)} (hschema : mbluePbDataLayoutGet index = .ok schema)
    (htyped : ∀ fields, schema = some fields → List.Forall₂ Typed fields src)
    (htags : ∀ fields, schema = some fields → ∀ f ∈ fields, f.tag < 2 ^ 28)
    (h : mblueSerializeIpc memory junk method index src = .ok ⟨some block, frees⟩) :
    frees = 0 ∧ block.length < 2 ^ 32 ∧
    (∀ fields, schema = some fields → Countable src ∧ (wire fields src).length < 2 ^ 32) ∧
    ∃ rest, block = Varint.encode (wire dlRpcHeaderFields (rpcHeader method junk index)).length ++
      wire dlRpcHeaderFields (rpcHeader method junk index) ++ wireBody schema src ++ 0 :: rest := by
  have hheader := typed_rpcHeader method junk index
  have htagsH : ∀ f ∈ dlRpcHeaderFields, f.tag < 2 ^ 28 := by decide
  have hsmall := length_wire_rpcHeader method junk index
  obtain ⟨headerSize, dataSize, buffer, s, t, hhs, hds, hm, hs, ht, rfl, rfl⟩ :=
    mblueSerializeIpc_eq_some hschema h
  obtain ⟨slack, hbuffer, hlt, hle⟩ := length_mblueMalloc hm
  obtain ⟨-, hwire, hhead⟩ := wrote_of_pbEncodeSubmessage hheader htagsH rfl hlt hs
  rw [pbGetEncodedSize_eq hheader, hwire] at hhs
  generalize wire dlRpcHeaderFields (rpcHeader method junk index) = H at *
  have hmod : H.length % 2 ^ 32 = H.length := Nat.mod_eq_of_lt (hsmall.trans (by decide))
  have hone : (Varint.encode H.length).length = 1 := by
    rw [Varint.encode_of_lt hsmall]
    rfl
  rw [hmod, Except.ok.injEq] at hhs
  subst hhs
  generalize hbs : (H.length + 4 + bodyRoom dataSize) % 2 ^ 32 = bufferSize at *
  obtain ⟨hwrote, hshort, hbodyLe, hbodyGe⟩ := wrote_body htyped htags hhead rfl hlt hds ht
  have htotal : (Varint.encode H.length ++ H ++ wireBody schema src).length =
      1 + H.length + (wireBody schema src).length := by
    rw [List.length_append, List.length_append, hone]
  have hin : 1 + H.length + (wireBody schema src).length ≤ buffer.length := by
    have := hwrote.inBlock
    rw [htotal] at this
    exact (Nat.zero_add _).symm.trans_le this
  -- the buffer is longer than what was written, so a zero of the allocation remains
  have hroom : 1 + H.length + (wireBody schema src).length < bufferSize := by omega
  have hrest : ∃ rest, buffer.drop (1 + H.length + (wireBody schema src).length) = 0 :: rest := by
    refine ⟨List.replicate (bufferSize - (1 + H.length + (wireBody schema src).length) - 1) 0 ++
      slack, ?_⟩
    rw [hbuffer, List.drop_append_of_le_length (by rw [List.length_replicate]; omega),
      List.drop_replicate, ← List.cons_append, ← List.replicate_succ]
    congr 2
    omega
  obtain ⟨rest, hrest⟩ := hrest
  refine ⟨rfl, hwrote.length_block.trans_lt hlt, hshort, rest, ?_⟩
  have hfinal := hwrote.block
  rw [htotal] at hfinal
  rw [hfinal, ← hrest]
  simp only [pbOstreamFromBuffer, List.take_zero, List.nil_append, Nat.zero_add]

end Mblue
