import Mblue.Schema.Encoding

/-!
# Who frees the serializer's block

`mblue_serialize_ipc` over encoder functions that may do anything: succeed or fail, in each pass
anew, as a callback with a state of its own can make them. What matters is then the order of the
steps and what the error paths do with the block. The path on which the body's encoding fails frees
it and goes on to the common exit, which frees it once more.
-/

namespace Mblue

/-- The encoder functions. `σ` is what the callbacks keep from one pass to the next, and `none` the
result `false`. -/
structure Encoder (σ : Type) where
  pbGetEncodedSize : σ → List PbField → List (PbValue (List UInt8)) → Option ℕ × σ
  pbEncodeDelimited : σ → PbOstream → List PbField → List (PbValue (List UInt8)) →
    Option PbOstream × σ
  pbEncodeSubmessage : σ → PbOstream → List PbField → List (PbValue (List UInt8)) →
    Option PbOstream × σ

/-- What `mblue_serialize_ipc` calls, with the outcome of each call that can fail. -/
inductive SerializeEvent
  | size (ok : Bool)
  | malloc (ok : Bool)
  | encode (ok : Bool)
  | free
  deriving DecidableEq, Repr

/-- A step that failed. -/
def SerializeEvent.failed : SerializeEvent → Bool
  | size ok => !ok
  | malloc ok => !ok
  | encode ok => !ok
  | free => false

/-- What `mblue_serialize_ipc` returns, and what it has called. -/
abbrev SerializeTrace := Option (List UInt8) × List SerializeEvent

variable {σ : Type}

/-- `exited:`. -/
def serializeExited (res : ℤ) (buffer : Option (List UInt8)) (events : List SerializeEvent) :
    SerializeTrace :=
  if res ≠ 0 ∧ buffer ≠ none then (none, events ++ [.free]) else (buffer, events)

/-- `buffer_size`. -/
def serializeBufferSize (headerSize dataSize : ℕ) : ℕ :=
  (headerSize + 4 + (if dataSize = 0 then 0 else dataSize + 4)) % 2 ^ 32

/-- `mblue_serialize_ipc` over any encoder and allocator, for the schema of its layout and the header
it has filled. -/
def serializeIpcWith (enc : Encoder σ) (mblueMalloc : ℕ → Option (List UInt8)) (s : σ)
    (dataSchema : Option (List PbField)) (header src : List (PbValue (List UInt8))) :
    SerializeTrace :=
  match enc.pbGetEncodedSize s dlRpcHeaderFields header with
  | (none, _) => serializeExited (-1) none [.size false]
  | (some headerSize, s) =>
    match (match dataSchema with
      | none => (some 0, s)
      | some fields => enc.pbGetEncodedSize s fields src) with
    | (none, _) => serializeExited (-1) none [.size true, .size false]
    | (some dataSize, s) =>
      let sizes := .size true :: (if dataSchema.isSome then [.size true] else [])
      match mblueMalloc (serializeBufferSize headerSize dataSize) with
      | none => serializeExited (-1) none (sizes ++ [.malloc false])
      | some buffer =>
        match enc.pbEncodeDelimited s
            (pbOstreamFromBuffer buffer (serializeBufferSize headerSize dataSize))
            dlRpcHeaderFields header with
        | (none, _) =>
          serializeExited (-1) (some buffer) (sizes ++ [.malloc true, .encode false])
        | (some stream, s) =>
          match dataSchema with
          | none => serializeExited 0 (some stream.block) (sizes ++ [.malloc true, .encode true])
          | some fields =>
            match enc.pbEncodeSubmessage s stream fields src with
            | (none, _) => serializeExited (-1) (some stream.block)
                (sizes ++ [.malloc true, .encode true, .encode false, .free])
            | (some stream, _) => serializeExited 0 (some stream.block)
                (sizes ++ [.malloc true, .encode true, .encode true])

/-- The encoder of `pb_encode.c`, for structs whose callback is `encode`. -/
def pbEncoder (encode : PbEncodeCallback) : Encoder Unit where
  pbGetEncodedSize _ fields src := ((pbGetEncodedSize encode fields src).toOption, ())
  pbEncodeDelimited _ s fields src := ((pbEncodeSubmessage encode s fields src).toOption, ())
  pbEncodeSubmessage _ s fields src := ((pbEncodeSubmessage encode s fields src).toOption, ())

/-- An outcome on which the block has one owner: a returned block has not been freed and every step
succeeded; without one some step failed, and the block, if there was one, was freed once. -/
structure OwnsBlock (dataSchema : Option (List PbField)) (t : SerializeTrace) : Prop where
  returned : ∀ block, t.1 = some block → t.2 = .size true ::
    (if dataSchema.isSome then [.size true] else []) ++ [.malloc true, .encode true] ++
      (if dataSchema.isSome then [.encode true] else [])
  failed : t.1 = none → (∃ e ∈ t.2, e.failed = true) ∧
    (.malloc true ∈ t.2 → t.2.count .free = 1)

/-- All is well up to the encoding of the body, which fails. -/
def BodyFails (enc : Encoder σ) (mblueMalloc : ℕ → Option (List UInt8)) (s : σ)
    (dataSchema : Option (List PbField)) (header src : List (PbValue (List UInt8))) : Prop :=
  ∃ fields headerSize dataSize buffer stream s₁ s₂ s₃ s₄, dataSchema = some fields ∧
    enc.pbGetEncodedSize s dlRpcHeaderFields header = (some headerSize, s₁) ∧
    enc.pbGetEncodedSize s₁ fields src = (some dataSize, s₂) ∧
    mblueMalloc (serializeBufferSize headerSize dataSize) = some buffer ∧
    enc.pbEncodeDelimited s₂
      (pbOstreamFromBuffer buffer (serializeBufferSize headerSize dataSize))
      dlRpcHeaderFields header = (some stream, s₃) ∧
    enc.pbEncodeSubmessage s₃ stream fields src = (none, s₄)

section Paths

variable {enc : Encoder σ} {mblueMalloc : ℕ → Option (List UInt8)} {s : σ}
  {dataSchema : Option (List PbField)} {header src : List (PbValue (List UInt8))}

/-- An error path with no block. -/
theorem ownsBlock_of_none {events : List SerializeEvent}
    (hfailed : ∃ e ∈ events, e.failed = true) (hmalloc : .malloc true ∉ events) :
    OwnsBlock dataSchema (serializeExited (-1) none events) :=
  ⟨fun _ h ↦ (Option.some_ne_none _ h.symm).elim, fun _ ↦
    ⟨hfailed, fun h ↦ absurd h hmalloc⟩⟩

/-- An error path that leaves the block to the common exit. -/
theorem ownsBlock_of_some {buffer : List UInt8} {events : List SerializeEvent}
    (hfailed : ∃ e ∈ events, e.failed = true) (hfree : .free ∉ events) :
    OwnsBlock dataSchema (serializeExited (-1) (some buffer) events) := by
  obtain ⟨e, he, hef⟩ := hfailed
  refine ⟨fun _ h ↦ (Option.some_ne_none _ h.symm).elim, fun _ ↦
    ⟨⟨e, List.mem_append_left _ he, hef⟩, fun _ ↦ ?_⟩⟩
  show (events ++ [SerializeEvent.free]).count .free = 1
  rw [List.count_append, List.count_eq_zero_of_not_mem hfree]
  rfl

/-- The path that frees twice. -/
theorem not_ownsBlock_of_freed {buffer : List UInt8} {events : List SerializeEvent}
    (hmalloc : .malloc true ∈ events) (hfree : .free ∈ events) :
    ¬ OwnsBlock dataSchema (serializeExited (-1) (some buffer) events) := by
  intro h
  have hone : (events ++ [SerializeEvent.free]).count .free = 1 :=
    (h.failed rfl).2 (List.mem_append_left _ hmalloc)
  have hpos : 0 < events.count .free := List.count_pos_iff.2 hfree
  rw [List.count_append, List.count_singleton_self] at hone
  omega

/-- The path on which every step succeeds. -/
theorem ownsBlock_of_returned {buffer : List UInt8} {events : List SerializeEvent}
    (hevents : events = .size true :: (if dataSchema.isSome then [.size true] else []) ++
      [.malloc true, .encode true] ++ (if dataSchema.isSome then [.encode true] else [])) :
    OwnsBlock dataSchema (serializeExited 0 (some buffer) events) :=
  ⟨fun _ _ ↦ hevents, fun h ↦ (Option.some_ne_none _ h).elim⟩

/-- Without a struct to encode every path is sound. -/
theorem ownsBlock_none : OwnsBlock none (serializeIpcWith enc mblueMalloc s none header src) := by
  rw [serializeIpcWith]
  rcases enc.pbGetEncodedSize s dlRpcHeaderFields header with ⟨_ | headerSize, s₁⟩
  · exact ownsBlock_of_none ⟨_, List.mem_singleton_self _, rfl⟩ (by decide)
  dsimp only
  rcases mblueMalloc (serializeBufferSize headerSize 0) with _ | buffer
  · exact ownsBlock_of_none ⟨.malloc false, by decide, rfl⟩ (by decide)
  dsimp only
  rcases enc.pbEncodeDelimited s₁ (pbOstreamFromBuffer buffer (serializeBufferSize headerSize 0))
    dlRpcHeaderFields header with ⟨_ | stream, s₂⟩
  · exact ownsBlock_of_some ⟨.encode false, by decide, rfl⟩ (by decide)
  · exact ownsBlock_of_returned rfl

/-- **Who frees the block.** It has one owner on every path but that on which the encoding of the
body fails. -/
theorem ownsBlock_iff : OwnsBlock dataSchema
    (serializeIpcWith enc mblueMalloc s dataSchema header src) ↔
      ¬ BodyFails enc mblueMalloc s dataSchema header src := by
  rcases dataSchema with _ | fields
  · refine iff_of_true ownsBlock_none ?_
    rintro ⟨fields, headerSize, dataSize, buffer, stream, s₁, s₂, s₃, s₄, h, -⟩
    cases h
  rw [serializeIpcWith]
  simp only [Option.isSome_some, ↓reduceIte, List.cons_append, List.nil_append]
  -- One case a call, in the order of the calls; only the last failure is the condition.
  rcases hheader : enc.pbGetEncodedSize s dlRpcHeaderFields header with ⟨_ | headerSize, s₁⟩
  · refine iff_of_true (ownsBlock_of_none ⟨_, List.mem_singleton_self _, rfl⟩ (by decide)) ?_
    simp [BodyFails, hheader]
  dsimp only
  rcases hdata : enc.pbGetEncodedSize s₁ fields src with ⟨_ | dataSize, s₂⟩
  · refine iff_of_true (ownsBlock_of_none ⟨.size false, by decide, rfl⟩ (by decide)) ?_
    simp [BodyFails, hheader, hdata]
  dsimp only
  rcases hmalloc : mblueMalloc (serializeBufferSize headerSize dataSize) with _ | buffer
  · refine iff_of_true (ownsBlock_of_none ⟨.malloc false, by decide, rfl⟩ (by decide)) ?_
    simp [BodyFails, hheader, hdata, hmalloc]
  dsimp only
  rcases hdelimited : enc.pbEncodeDelimited s₂
    (pbOstreamFromBuffer buffer (serializeBufferSize headerSize dataSize))
    dlRpcHeaderFields header with ⟨_ | stream, s₃⟩
  · refine iff_of_true (ownsBlock_of_some ⟨.encode false, by decide, rfl⟩ (by decide)) ?_
    simp [BodyFails, hheader, hdata, hmalloc, hdelimited]
  dsimp only
  rcases hbody : enc.pbEncodeSubmessage s₃ stream fields src with ⟨_ | stream', s₄⟩
  · exact iff_of_false (not_ownsBlock_of_freed (by decide) (by decide))
      (not_not_intro ⟨fields, headerSize, dataSize, buffer, stream, s₁, s₂, s₃, s₄, rfl, hheader,
        hdata, hmalloc, hdelimited, hbody⟩)
  · refine iff_of_true (ownsBlock_of_returned rfl) ?_
    simp [BodyFails, hheader, hdata, hmalloc, hdelimited, hbody]

end Paths

/-! ### The codec as an encoder -/

theorem toOption_ok {α : Type} (a : α) : (Except.ok a : PbM α).toOption = some a := rfl

/-- A call and its error branch, as `serializeIpcWith` sees them. -/
theorem orElse_cases {α β : Type} {call : PbM α} {no : PbM β} {yes : α → PbM β} {b : β}
    (h : orElse call no yes = .ok b) :
    (call.toOption = none ∧ no = .ok b) ∨ ∃ a, call.toOption = some a ∧ yes a = .ok b := by
  rcases call with (_ | _) | a
  · exact .inl ⟨rfl, h⟩
  · cases h
  · exact .inr ⟨a, rfl, h⟩

/-- The model over the codec is this one over `pbEncoder`: the same result, and as many frees. -/
theorem serializeIpcWith_pbEncoder {memory : Option (ℕ → UInt8)} {junk : UInt8}
    {method : List UInt8} {index : ℕ} {src : List (PbValue (List UInt8))} {r : Serialized}
    {dataSchema : Option (List PbField)} (hschema : mbluePbDataLayoutGet index = .ok dataSchema)
    (h : mblueSerializeIpc memory junk method index src = .ok r) :
    ∃ events, serializeIpcWith (pbEncoder mbluePbWriteBytes)
        (fun n ↦ (mblueMalloc memory n).toOption.join) () dataSchema (rpcHeader method junk index)
        src = (r.buffer, events) ∧ events.count .free = r.frees := by
  rw [mblueSerializeIpc, hschema, ok_bind] at h
  rw [serializeIpcWith]
  simp only [pbEncoder]
  obtain ⟨hheader, h⟩ | ⟨headerSize, hheader, h⟩ := orElse_cases h
  · obtain rfl := Except.ok.inj h
    rw [hheader]
    exact ⟨_, rfl, rfl⟩
  rw [hheader]
  -- with and without data: the exits are those of the source, in its order
  rcases dataSchema with _ | fields
  · dsimp only
    rw [serializeBufferSize]
    obtain ⟨_ | buffer, hmalloc, h⟩ := bind_eq_ok h
    · obtain rfl := Except.ok.inj h
      rw [hmalloc]
      exact ⟨_, rfl, rfl⟩
    rw [hmalloc]
    dsimp only [toOption_ok, Option.join_some]
    obtain ⟨hdelimited, h⟩ | ⟨stream, hdelimited, h⟩ := orElse_cases h
    · obtain rfl := Except.ok.inj h
      rw [hdelimited]
      exact ⟨_, rfl, rfl⟩
    · obtain rfl := Except.ok.inj h
      rw [hdelimited]
      exact ⟨_, rfl, rfl⟩
  · dsimp only
    obtain ⟨hdata, h⟩ | ⟨dataSize, hdata, h⟩ := orElse_cases h
    · obtain rfl := Except.ok.inj h
      rw [hdata]
      exact ⟨_, rfl, rfl⟩
    rw [hdata]
    dsimp only
    rw [serializeBufferSize]
    obtain ⟨_ | buffer, hmalloc, h⟩ := bind_eq_ok h
    · obtain rfl := Except.ok.inj h
      rw [hmalloc]
      exact ⟨_, rfl, rfl⟩
    rw [hmalloc]
    dsimp only [toOption_ok, Option.join_some]
    obtain ⟨hdelimited, h⟩ | ⟨stream, hdelimited, h⟩ := orElse_cases h
    · obtain rfl := Except.ok.inj h
      rw [hdelimited]
      exact ⟨_, rfl, rfl⟩
    rw [hdelimited]
    dsimp only
    obtain ⟨hbody, h⟩ | ⟨stream', hbody, h⟩ := orElse_cases h
    · obtain rfl := Except.ok.inj h
      rw [hbody]
      exact ⟨_, rfl, rfl⟩
    · obtain rfl := Except.ok.inj h
      rw [hbody]
      exact ⟨_, rfl, rfl⟩

/-- A callback that writes its data when sizes are computed and fails when the stream has a
buffer. -/
def refusesBuffer : PbEncodeCallback := fun s field bytes ↦
  if s.sizing then mbluePbWriteBytes s field bytes else throw .failed

/-- The request `log([1])` with such a callback: the block is freed by the inline error branch and
by the common exit. -/
theorem not_ownsBlock_refusesBuffer : ¬ OwnsBlock (some dlArrayFields)
    (serializeIpcWith (pbEncoder refusesBuffer) (fun n ↦ some (List.replicate n 0)) ()
      (some dlArrayFields) (rpcHeader [0x6C, 0x6F, 0x67] 0 2) [.callback [1]]) := by
  intro h
  have htrace : serializeIpcWith (pbEncoder refusesBuffer) (fun n ↦ some (List.replicate n 0)) ()
      (some dlArrayFields) (rpcHeader [0x6C, 0x6F, 0x67] 0 2) [.callback [1]] =
        (none, [.size true, .size true, .malloc true, .encode true, .encode false, .free, .free]) := by
    decide +kernel
  rw [htrace] at h
  exact absurd ((h.failed rfl).2 (by decide)) (by decide)

end Mblue
