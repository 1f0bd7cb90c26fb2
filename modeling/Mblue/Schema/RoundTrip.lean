import Mblue.Schema.Encoding

/-!
# The marshalling round trip

`Receives` says what a handler is to get for the struct a client serialized: the integers in order,
and the data as a pointer into the block with its length, or as a C string. `readRequest_serialize`
proves it of the block `mblue_serialize_ipc` returns, for every layout of the table: the header
decodes to the layout's index, the layout's parser decodes the struct, and the handler is called
once, with these arguments.
-/

namespace Mblue

/-- The C string at a position of a block, when it is terminated inside the block. -/
def cStringAt (block : List UInt8) (off : ℕ) : Option (List UInt8) :=
  if 0 ∈ block.drop off then some ((block.drop off).takeWhile (· ≠ 0)) else none

theorem cStringAt_of_drop {block rest data : List UInt8} {off : ℕ} (hnul : 0 ∉ data)
    (h : block.drop off = data ++ 0 :: rest) : cStringAt block off = some data := by
  have hall : ∀ b ∈ data, decide (b ≠ 0) = true := fun b hb ↦ by
    rw [decide_eq_true_eq]
    rintro rfl
    exact hnul hb
  unfold cStringAt
  rw [h, if_pos (List.mem_append_right _ List.mem_cons_self), List.takeWhile_append_of_pos hall,
    List.takeWhile_cons_of_neg (by decide), List.append_nil]

/-- What a handler is to receive for a struct: its integers in order, and its data where it lies in
the block, with its length or (`cString`) as a terminated string. -/
def Receives (block : List UInt8) (cString : Bool) :
    List (PbValue (List UInt8)) → List HandlerArg → Prop
  | [], args => args = []
  | .int32 v :: src, args => ∃ rest, args = .int v :: rest ∧ Receives block cString src rest
  | .callback data :: src, args =>
    if cString then ∃ off rest, args = .pointer (.block off) :: rest ∧
      cStringAt block off = some data ∧ Receives block cString src rest
    else ∃ off rest, args = .pointer (.block off) :: .size data.length :: rest ∧
      data <+: block.drop off ∧ Receives block cString src rest
  | .chars _ :: _, _ => False

/-- No member of the layout is a static string. -/
def NoChars (fields : List PbField) : Prop := ∀ f ∈ fields, f.atype = .static → f.ltype = .varint

/-- A parser that passes pointer and length hands a decoded struct on as it should. -/
theorem receives_bytesAndLen {block rest : List UInt8} {fields : List PbField}
    {src : List (PbValue (List UInt8))} (hfit : List.Forall₂ Fits fields src)
    (hno : NoChars fields) {dest : List (PbValue MblueByteBundler)}
    (h : StructDecoded block rest fields src dest) :
    Receives block false src (handlerArgs bytesAndLen dest) := by
  induction hfit generalizing dest with
  | nil => rw [show dest = [] from h]; rfl
  | @cons field value fields src hf _ ih =>
    obtain ⟨d, ds, rfl, hd, hds⟩ := h
    have hrest := ih (fun f hmem ↦ hno f (List.mem_cons_of_mem _ hmem)) hds
    cases hf with
    | int32 tag v =>
      rw [show d = .int32 v from hd]
      exact ⟨_, rfl, hrest⟩
    | chars tag size bytes hsize hlen =>
      cases hno _ List.mem_cons_self rfl
    | bytes tag data | string tag data =>
      obtain ⟨off, rfl, hoff⟩ := hd
      exact ⟨off, _, rfl, hoff ▸ List.prefix_append _ _, hrest⟩

/-- `dl113_parser` passes its data, the last member, as a string: a zero byte behind the struct
terminates it. -/
theorem receives_charPointer {block rest : List UInt8} {src : List (PbValue (List UInt8))}
    (hfit : List.Forall₂ Fits dl113Fields src) (hnul : ∀ data, .callback data ∈ src → 0 ∉ data)
    {dest : List (PbValue MblueByteBundler)}
    (h : StructDecoded block (0 :: rest) dl113Fields src dest) :
    Receives block true src (handlerArgs charPointer dest) := by
  unfold dl113Fields at hfit h
  rcases hfit with _ | ⟨h₁, _ | ⟨h₂, _ | ⟨h₃, _ | _⟩⟩⟩
  cases h₁ with | int32 _ v₁
  cases h₂ with | int32 _ v₂
  cases h₃ with | string _ data
  obtain ⟨d₁, ds₁, rfl, hd₁, d₂, ds₂, rfl, hd₂, d₃, ds₃, rfl, hd₃, hds₃⟩ := h
  obtain ⟨off, rfl, hoff⟩ := hd₃
  rw [show d₁ = .int32 v₁ from hd₁, show d₂ = .int32 v₂ from hd₂, show ds₃ = [] from hds₃]
  refine ⟨_, rfl, _, rfl, off, _, rfl, ?_, rfl⟩
  exact cStringAt_of_drop (hnul data (by simp)) hoff

/-! ### The layout table -/

/-- Whether the parser of a layout passes its data as a string. -/
def passesCString (index : ℕ) : Bool := index == PbTypeIndex.pb113.toNat

/-- What the round trip needs of an entry of the layout table: the parser is the one for the fields,
and the fields are numbered in order. -/
theorem layout_cases {index : ℕ} (h : index < pbMax) :
    (mbluePbDataLayoutGet index = .ok none ∧ mbluePbDataParserGet index = .ok simpleRequestParser) ∨
    ∃ fields, Consecutive fields ∧ NoChars fields ∧ mbluePbDataLayoutGet index = .ok (some fields) ∧
      ((passesCString index = false ∧
        mbluePbDataParserGet index = .ok (layoutParser fields bytesAndLen)) ∨
      (passesCString index = true ∧ fields = dl113Fields ∧
        mbluePbDataParserGet index = .ok (layoutParser fields charPointer))) := by
  have hrange : index ∈ List.range pbMax := List.mem_range.2 h
  simp only [pbMax, List.range_succ, List.range_zero, List.nil_append, List.mem_append,
    List.mem_singleton] at hrange
  have hcons : ∀ fields, fields ∈ [dl1Fields, dlArrayFields, dl12Fields, dl112Fields, dl113Fields,
      dl111Fields, dl1111Fields, dl1112Fields] → Consecutive fields ∧ NoChars fields := by
    unfold Consecutive NoChars
    decide
  rcases hrange with (((((((rfl | rfl) | rfl) | rfl) | rfl) | rfl) | rfl) | rfl) | rfl
  · exact .inl ⟨rfl, rfl⟩
  · exact .inr ⟨dl1Fields, (hcons _ (by decide)).1, (hcons _ (by decide)).2, rfl, .inl ⟨rfl, rfl⟩⟩
  · exact .inr ⟨dlArrayFields, (hcons _ (by decide)).1, (hcons _ (by decide)).2, rfl,
      .inl ⟨rfl, rfl⟩⟩
  · exact .inr ⟨dl12Fields, (hcons _ (by decide)).1, (hcons _ (by decide)).2, rfl, .inl ⟨rfl, rfl⟩⟩
  · exact .inr ⟨dl112Fields, (hcons _ (by decide)).1, (hcons _ (by decide)).2, rfl, .inl ⟨rfl, rfl⟩⟩
  · exact .inr ⟨dl113Fields, (hcons _ (by decide)).1, (hcons _ (by decide)).2, rfl,
      .inr ⟨rfl, rfl, rfl⟩⟩
  · exact .inr ⟨dl111Fields, (hcons _ (by decide)).1, (hcons _ (by decide)).2, rfl, .inl ⟨rfl, rfl⟩⟩
  · exact .inr ⟨dl1111Fields, (hcons _ (by decide)).1, (hcons _ (by decide)).2, rfl,
      .inl ⟨rfl, rfl⟩⟩
  · exact .inr ⟨dl1112Fields, (hcons _ (by decide)).1, (hcons _ (by decide)).2, rfl,
      .inl ⟨rfl, rfl⟩⟩

theorem Consecutive.tag_lt {fields : List PbField} (h : Consecutive fields) :
    ∀ f ∈ fields, f.tag < 2 ^ 28 := by
  intro f hf
  obtain ⟨i, hi, rfl⟩ := List.getElem_of_mem hf
  rw [h.tag_eq hi]
  have := h.1
  omega

/-! ### Reading the serialized request -/

/-- The struct of a layout: members that fit its fields, none for the layout without data. -/
def LayoutFits (index : ℕ) (src : List (PbValue (List UInt8))) : Prop :=
  match mbluePbDataLayoutGet index with
  | .ok (some fields) => List.Forall₂ Fits fields src
  | _ => src = []

/-- The layout index survives the `int32` member of the header. -/
theorem layoutIndex_eq {index : ℕ} (h : index < pbMax) :
    (BitVec.ofNat 32 index).toNat % 2 ^ 16 = index := by
  have hlt : index < 9 := h
  rw [BitVec.toNat_ofNat]
  omega

/-- **The first delimited struct of a block**, on a stream that is bounded by the address space
only. -/
theorem pbDecodeDelimited_block {fields : List PbField} {values : List (PbValue (List UInt8))}
    (hcons : Consecutive fields) (hfit : List.Forall₂ Fits fields values)
    (hcount : Countable values) {block tail : List UInt8} (hlt : block.length < 2 ^ 32)
    (hblock : block =
      Varint.encode (wire fields values).length ++ wire fields values ++ tail) :
    ∃ dest, pbDecodeDelimited mbluePbGetBytesPointer (pbIstreamFromBuffer block (2 ^ 32 - 1))
        fields = .ok (dest, (pbIstreamFromBuffer block (2 ^ 32 - 1)).advance
          (Varint.encode (wire fields values).length ++ wire fields values).length) ∧
      StructDecoded block tail fields values dest := by
  have htotal := congrArg List.length hblock
  rw [List.length_append] at htotal
  have hwire : (wire fields values).length < 2 ^ 32 := by
    rw [List.length_append] at htotal
    omega
  have hbound : (Varint.encode (wire fields values).length ++ wire fields values).length ≤
      (pbIstreamFromBuffer block (2 ^ 32 - 1)).bytesLeft := by
    show _ ≤ 2 ^ 32 - 1
    omega
  exact pbDecodeDelimited_reads hcons hfit hcount hwire (Nat.zero_le _) hblock hbound rfl

/-- How a parser passes the data of its layout. -/
def dataArgs (index : ℕ) : MblueByteBundler → List HandlerArg :=
  if passesCString index then charPointer else bytesAndLen

/-- What a handler is called with for a serialized struct. -/
def HandlerCalled (block rest : List UInt8) (index : ℕ) (src : List (PbValue (List UInt8)))
    (args : List HandlerArg) : Option (List PbField) → Prop
  | none => args = []
  | some fields => ∃ dest, args = handlerArgs (dataArgs index) dest ∧
      StructDecoded block rest fields src dest

/-- **The header, then the struct**: `default_ipc_handler` reads back what is in a serialized
request, and calls the handler with it. -/
theorem readRequest_decodes {memory : Option (ℕ → UInt8)} {junk : UInt8} {method : List UInt8}
    {index frees : ℕ} {src : List (PbValue (List UInt8))} {block : List UInt8} {ipcFunc : Word}
    (hindex : index < pbMax) (hmethod : 0 ∉ method) (hlen : method.length < maxIpcMethodNameLength)
    (hfit : LayoutFits index src)
    (h : mblueSerializeIpc memory junk method index src = .ok ⟨some block, frees⟩)
    (hfunc : ipcFunc ≠ 0) :
    ∃ schema rest args, mbluePbDataLayoutGet index = .ok schema ∧
      block = Varint.encode (wire dlRpcHeaderFields (rpcHeader method junk index)).length ++
        wire dlRpcHeaderFields (rpcHeader method junk index) ++ wireBody schema src ++ 0 :: rest ∧
      readRequest (some block) ipcFunc = .ok (.parsed (.call args)) ∧
      HandlerCalled block (0 :: rest) index src args schema := by
  have hheader := fits_rpcHeader junk hmethod hlen index
  have hcountH : Countable (rpcHeader method junk index) := by
    intro data hmem
    simp only [rpcHeader, List.mem_cons, reduceCtorEq, List.not_mem_nil, or_self] at hmem
  have hconsH : Consecutive dlRpcHeaderFields := by
    rw [Consecutive]
    decide
  -- whatever the body is, the header in front of it is decoded first
  have hread : ∀ (schema : Option (List PbField)) (rest : List UInt8), block.length < 2 ^ 32 →
      block = Varint.encode (wire dlRpcHeaderFields (rpcHeader method junk index)).length ++
        wire dlRpcHeaderFields (rpcHeader method junk index) ++ wireBody schema src ++ 0 :: rest →
      ∃ s : PbIstream, s.buf = block ∧ s.onStack = false ∧ s.state ≤ block.length ∧
        block.drop s.state = wireBody schema src ++ 0 :: rest ∧
        (wireBody schema src).length ≤ s.bytesLeft ∧
        readRequest (some block) ipcFunc = (do
          let parser ← mbluePbDataParserGet index
          let r ← parser s
          pure (.parsed r)) := by
    intro schema rest hlt hblock
    have htotal := congrArg List.length hblock
    rw [List.length_append, List.length_append] at htotal
    obtain ⟨dest, hdest, hdec⟩ := pbDecodeDelimited_block hconsH hheader hcountH hlt
      (hblock.trans (List.append_assoc _ _ _))
    obtain ⟨d₁, ds₁, rfl, -, d₂, ds₂, rfl, hd₂, hds₂⟩ := hdec
    rw [show d₂ = .int32 (BitVec.ofNat 32 index) from hd₂, show ds₂ = [] from hds₂] at hdest
    refine ⟨(pbIstreamFromBuffer block (2 ^ 32 - 1)).advance
      (Varint.encode (wire dlRpcHeaderFields (rpcHeader method junk index)).length ++
        wire dlRpcHeaderFields (rpcHeader method junk index)).length, rfl, rfl, ?_, ?_, ?_, ?_⟩
    · show 0 + _ ≤ _
      omega
    · show block.drop (0 + _) = _
      rw [Nat.zero_add, hblock, List.append_assoc, List.drop_left]
    · show _ ≤ 2 ^ 32 - 1 - _
      omega
    · rw [readRequest, hdest, orElse]
      simp only [if_neg hfunc, layoutIndex_eq hindex]
  rcases layout_cases hindex with ⟨hlayout, hparser⟩ | ⟨fields, hcons, hno, hlayout, hparser⟩
  · obtain ⟨-, hlt, -, rest, hblock⟩ := mblueSerializeIpc_some hlayout
      (fun _ h ↦ absurd h (by simp)) (fun _ h ↦ absurd h (by simp)) h
    obtain ⟨s, -, -, -, -, -, hs⟩ := hread none rest hlt hblock
    refine ⟨none, rest, [], hlayout, hblock, ?_, rfl⟩
    rw [hs, hparser]
    rfl
  · have hfit' : List.Forall₂ Fits fields src := by
      rw [LayoutFits, hlayout] at hfit
      exact hfit
    obtain ⟨-, hlt, hshort, rest, hblock⟩ := mblueSerializeIpc_some hlayout
      (fun _ h ↦ Option.some.inj h ▸ typed_of_fits hfit')
      (fun _ h ↦ Option.some.inj h ▸ hcons.tag_lt) h
    obtain ⟨hcount, hwire⟩ := hshort fields rfl
    obtain ⟨s, hbuf, hstack, hin, hdrop, hleft, hs⟩ := hread (some fields) rest hlt hblock
    subst hbuf
    obtain ⟨dest, hdest, hdec⟩ := pbDecodeDelimited_reads hcons hfit' hcount hwire hin hdrop hleft
      hstack
    have hp : mbluePbDataParserGet index = .ok (layoutParser fields (dataArgs index)) := by
      rcases hparser with ⟨hc, hp⟩ | ⟨hc, -, hp⟩
      · rw [dataArgs, hc]
        exact hp
      · rw [dataArgs, hc]
        exact hp
    refine ⟨some fields, rest, _, hlayout, hblock, ?_, dest, rfl, hdec⟩
    rw [hs, hp]
    simp only [ok_bind, layoutParser, hdest, pure_eq_ok]

/-- **The marshalling round trip.** What `mblue_serialize_ipc` makes of a struct is read by
`default_ipc_handler` as one call of the handler with exactly that struct's members. -/
theorem readRequest_serialize {memory : Option (ℕ → UInt8)} {junk : UInt8} {method : List UInt8}
    {index frees : ℕ} {src : List (PbValue (List UInt8))} {block : List UInt8} {ipcFunc : Word}
    (hindex : index < pbMax) (hmethod : 0 ∉ method) (hlen : method.length < maxIpcMethodNameLength)
    (hfit : LayoutFits index src)
    (hstring : passesCString index = true → ∀ data, .callback data ∈ src → 0 ∉ data)
    (h : mblueSerializeIpc memory junk method index src = .ok ⟨some block, frees⟩)
    (hfunc : ipcFunc ≠ 0) :
    ∃ args, readRequest (some block) ipcFunc = .ok (.parsed (.call args)) ∧
      Receives block (passesCString index) src args := by
  obtain ⟨schema, rest, args, hschema, -, hread, hcalled⟩ :=
    readRequest_decodes hindex hmethod hlen hfit h hfunc
  refine ⟨args, hread, ?_⟩
  rcases layout_cases hindex with ⟨hlayout, -⟩ | ⟨fields, -, hno, hlayout, hparser⟩
  · obtain rfl := Except.ok.inj (hschema.symm.trans hlayout)
    rw [LayoutFits, hlayout] at hfit
    rw [hfit, show args = [] from hcalled]
    rfl
  · obtain rfl := Except.ok.inj (hschema.symm.trans hlayout)
    rw [LayoutFits, hlayout] at hfit
    obtain ⟨dest, rfl, hdec⟩ := hcalled
    rcases hparser with ⟨hc, -⟩ | ⟨hc, rfl, -⟩
    · rw [dataArgs, hc]
      exact receives_bytesAndLen hfit hno hdec
    · rw [dataArgs, hc]
      exact receives_charPointer hfit (hstring hc) hdec

end Mblue
