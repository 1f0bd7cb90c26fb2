import Mblue.Persistence.Frontier

/-!
# What `persistence_write` reports

The comment on `persistence_write` promises `0` for a failure. A write that stays in its lap keeps
the promise. One that goes round makes two calls of `write_cb`, overwrites the result of the first
with that of the second and that one with the length, and so never reports a failure.
-/

namespace Mblue

open NorFlash

variable {F : Type} {cb : Callbacks F} {sectorSize : ℕ → ℕ} {c : DataSectionInfo} {f : F}
  {buffer : List UInt8}

/-- The same callbacks with a record of the calls of `write_cb`: the bytes, and whether the result
was nonzero. -/
def Callbacks.outcomes (cb : Callbacks F) : Callbacks (F × List (List UInt8 × Bool)) where
  writeCb := fun s addr data ↦
    let r := cb.writeCb s.1 addr data
    (r.1, r.2, s.2 ++ [(data, decide (r.1 ≠ 0))])
  readCb := fun s addr len ↦
    let r := cb.readCb s.1 addr len
    (r.1, r.2.1, r.2.2, s.2)
  eraseCb := fun s addr len ↦
    let r := cb.eraseCb s.1 addr len
    (r.1, r.2, s.2)

/-- The bytes of the calls that succeeded. -/
def programmedBytes (calls : List (List UInt8 × Bool)) : List UInt8 :=
  (calls.filter (·.2)).flatMap (·.1)

/-- The result tells whether all bytes were programmed, and a write that returns `0` leaves the
write position and the end of the data where they were. -/
structure ReportsWrite (cb : Callbacks F) (sectorSize : ℕ → ℕ) (c : DataSectionInfo) (f : F)
    (buffer : List UInt8) : Prop where
  result : (persistenceWrite cb.outcomes sectorSize c (f, []) buffer).1 ≠ 0 ↔
    programmedBytes (persistenceWrite cb.outcomes sectorSize c (f, []) buffer).2.2.2 = buffer
  unchanged : (persistenceWrite cb.outcomes sectorSize c (f, []) buffer).1 = 0 →
    (persistenceWrite cb.outcomes sectorSize c (f, []) buffer).2.1.curWriteAddr = c.curWriteAddr ∧
    (persistenceWrite cb.outcomes sectorSize c (f, []) buffer).2.1.dataEndAddr = c.dataEndAddr

/-! ### Reachable sections -/

/-- The sections that writes of up to 128 KiB and reads lead to, whatever the callbacks do. A start
takes over a section that was one of these when it was saved. -/
inductive SectionReached : DataSectionInfo → Prop
  | initial : SectionReached initialConfig
  | write {F : Type} {c : DataSectionInfo} (cb : Callbacks F) (sectorSize : ℕ → ℕ) (f : F)
      (buffer : List UInt8) (hlen : buffer.length ≤ 0x20000) (h : SectionReached c) :
      SectionReached (persistenceWrite cb sectorSize c f buffer).2.1
  | read {F : Type} {c : DataSectionInfo} (cb : Callbacks F) (f : F) (len : ℕ)
      (h : SectionReached c) : SectionReached (persistenceRead cb c f len).config
  | rewind {c : DataSectionInfo} (h : SectionReached c) : SectionReached (rewindRead c)

/-- The write position is inside the log, and the data ends there. -/
structure Placed (c : DataSectionInfo) : Prop where
  startAddr : c.startAddr = logStartAddr
  endAddr : c.endAddr = logEndAddr
  start_le : logStartAddr ≤ c.curWriteAddr
  le_end : c.curWriteAddr ≤ logEndAddr
  dataEndAddr : c.dataEndAddr = c.curWriteAddr

/-- A read moves nothing but the read position. -/
theorem persistenceRead_config (cb : Callbacks F) (c : DataSectionInfo) (f : F) (len : ℕ) :
    ∃ a, (persistenceRead cb c f len).config = { c with curReadAddr := a } := by
  have hchunk : ∀ size next, ∃ a,
      (readChunk cb c f size next).config = { c with curReadAddr := a } := by
    intro size next
    rw [readChunk]
    dsimp only
    split
    · exact ⟨next, rfl⟩
    · exact ⟨c.curReadAddr, rfl⟩
  have hdata : ∃ a, (readToDataEnd cb c f len).config = { c with curReadAddr := a } := by
    rw [readToDataEnd]
    split <;> exact hchunk _ _
  have hend : ∃ a, (readToEnd cb c f len).config = { c with curReadAddr := a } := by
    rw [readToEnd]
    split
    · exact hchunk _ _
    · split
      · exact ⟨c.startAddr, rfl⟩
      · exact hchunk _ _
  rw [persistenceRead]
  split
  · exact ⟨c.curReadAddr, rfl⟩
  · split
    · exact hdata
    · split
      · exact hend
      · exact hdata

/-! ### The two kinds of write -/

/-- The device at the `write_cb` of a write that stays in its lap. -/
def eraseFirst (cb : Callbacks F) (sectorSize : ℕ → ℕ) (c : DataSectionInfo) (f : F) (len : ℕ) :
    F :=
  if c.eraseAddr < add32 c.curWriteAddr len then (eraseAhead cb sectorSize c f).2 else f

/-- The result of that call. -/
def straightResult (cb : Callbacks F) (sectorSize : ℕ → ℕ) (c : DataSectionInfo) (f : F)
    (buffer : List UInt8) : ℤ :=
  (cb.writeCb (eraseFirst cb sectorSize c f buffer.length) c.curWriteAddr buffer).1

/-- The results of the two calls of a write that goes round. -/
def roundResults (cb : Callbacks F) (sectorSize : ℕ → ℕ) (c : DataSectionInfo) (f : F)
    (buffer : List UInt8) : ℤ × ℤ :=
  let rest := c.endAddr - c.curWriteAddr
  let first := cb.writeCb f c.curWriteAddr (buffer.take rest)
  let f' := (cb.eraseCb first.2 c.startAddr (sectorSize c.startAddr)).2
  (first.1, (cb.writeCb f' c.startAddr (buffer.drop rest)).1)

theorem Placed.add32_eq (hc : Placed c) (hlen : buffer.length ≤ 0x20000) :
    add32 c.curWriteAddr buffer.length = c.curWriteAddr + buffer.length := by
  obtain ⟨-, -, hend⟩ := addresses
  have := hc.le_end
  exact add32_of_lt (by omega)

theorem Placed.sub32_eq (hc : Placed c) :
    sub32 c.endAddr c.curWriteAddr = c.endAddr - c.curWriteAddr := by
  obtain ⟨-, -, hend⟩ := addresses
  have hce := hc.endAddr
  have hle := hc.le_end
  exact sub32_of_le (by omega) (by omega)

/-- Wherever a call fails, the write position stays inside the log. -/
theorem Placed.write (hc : Placed c) (hlen : buffer.length ≤ 0x20000) :
    Placed (persistenceWrite cb sectorSize c f buffer).2.1 := by
  obtain ⟨hstart, -, hend⟩ := addresses
  have hadd := hc.add32_eq hlen
  have hrest := hc.sub32_eq
  obtain ⟨hcs, hce, hle, hge, -⟩ := hc
  have hmoved : ∀ {r : ℤ} {a b : ℕ}, (logStartAddr ≤ a ∧ a ≤ logEndAddr) →
      (logStartAddr ≤ b ∧ b ≤ logEndAddr) →
      logStartAddr ≤ (if r ≠ 0 then a else b) ∧ (if r ≠ 0 then a else b) ≤ logEndAddr := by
    intro r a b ha hb
    split
    · exact ha
    · exact hb
  rw [persistenceWrite]
  dsimp only
  by_cases hspace : add32 c.curWriteAddr buffer.length ≤ c.endAddr
  · have hnew : logStartAddr ≤ add32 c.curWriteAddr buffer.length ∧
        add32 c.curWriteAddr buffer.length ≤ logEndAddr := ⟨by omega, by omega⟩
    rw [if_pos hspace]
    by_cases herase : c.eraseAddr < add32 c.curWriteAddr buffer.length
    · rw [if_pos herase]
      exact ⟨hcs, hce, (hmoved hnew ⟨hle, hge⟩).1, (hmoved hnew ⟨hle, hge⟩).2, rfl⟩
    · rw [if_neg herase]
      exact ⟨hcs, hce, (hmoved hnew ⟨hle, hge⟩).1, (hmoved hnew ⟨hle, hge⟩).2, rfl⟩
  · -- what goes round is at most the whole write, which the log has room for
    have hmore : sub32 buffer.length (sub32 c.endAddr c.curWriteAddr) ≤ buffer.length := by
      rw [hrest, sub32_of_le (by omega) (by omega)]
      omega
    have hnext : add32 c.startAddr (sub32 buffer.length (sub32 c.endAddr c.curWriteAddr)) =
        c.startAddr + sub32 buffer.length (sub32 c.endAddr c.curWriteAddr) :=
      add32_of_lt (by omega)
    have hfirst : logStartAddr ≤ c.startAddr ∧ c.startAddr ≤ logEndAddr := ⟨by omega, by omega⟩
    have hnew : logStartAddr ≤
          add32 c.startAddr (sub32 buffer.length (sub32 c.endAddr c.curWriteAddr)) ∧
        add32 c.startAddr (sub32 buffer.length (sub32 c.endAddr c.curWriteAddr)) ≤ logEndAddr :=
      ⟨by omega, by omega⟩
    rw [if_neg hspace]
    exact ⟨hcs, hce, (hmoved hnew hfirst).1, (hmoved hnew hfirst).2, rfl⟩

theorem SectionReached.placed (h : SectionReached c) : Placed c := by
  induction h with
  | initial => exact ⟨rfl, rfl, le_rfl, by decide, rfl⟩
  | write cb sectorSize f buffer hlen _ ih => exact ih.write hlen
  | @read F c cb f len _ ih =>
    obtain ⟨a, ha⟩ := persistenceRead_config cb c f len
    rw [ha]
    exact ⟨ih.startAddr, ih.endAddr, ih.start_le, ih.le_end, ih.dataEndAddr⟩
  | rewind _ ih => exact ⟨ih.startAddr, ih.endAddr, ih.start_le, ih.le_end, ih.dataEndAddr⟩

/-! ### The report -/

theorem programmedBytes_single (b : Bool) :
    programmedBytes [(buffer, b)] = if b then buffer else [] := by
  rcases b with _ | _
  · rfl
  · exact List.append_nil buffer

/-- A write that stays in its lap makes one call and returns its result. -/
theorem outcomes_straight (cb : Callbacks F) (sectorSize : ℕ → ℕ) (f : F)
    (h : add32 c.curWriteAddr buffer.length ≤ c.endAddr) :
    (persistenceWrite cb.outcomes sectorSize c (f, []) buffer).1 =
        straightResult cb sectorSize c f buffer ∧
      (persistenceWrite cb.outcomes sectorSize c (f, []) buffer).2.2.2 =
        [(buffer, decide (straightResult cb sectorSize c f buffer ≠ 0))] ∧
      (straightResult cb sectorSize c f buffer = 0 →
        (persistenceWrite cb.outcomes sectorSize c (f, []) buffer).2.1.curWriteAddr =
            c.curWriteAddr ∧
        (persistenceWrite cb.outcomes sectorSize c (f, []) buffer).2.1.dataEndAddr =
            c.curWriteAddr) := by
  rw [persistenceWrite, straightResult, eraseFirst]
  dsimp only
  rw [if_pos h]
  by_cases herase : c.eraseAddr < add32 c.curWriteAddr buffer.length
  · rw [if_pos herase, if_pos herase]
    exact ⟨rfl, rfl, fun hr ↦ ⟨if_neg (not_not_intro hr), if_neg (not_not_intro hr)⟩⟩
  · rw [if_neg herase, if_neg herase]
    exact ⟨rfl, rfl, fun hr ↦ ⟨if_neg (not_not_intro hr), if_neg (not_not_intro hr)⟩⟩

/-- A write that goes round makes two calls and returns its length. -/
theorem outcomes_round (cb : Callbacks F) (sectorSize : ℕ → ℕ) (f : F) (hc : Placed c)
    (h : ¬ add32 c.curWriteAddr buffer.length ≤ c.endAddr) :
    (persistenceWrite cb.outcomes sectorSize c (f, []) buffer).1 = buffer.length ∧
      (persistenceWrite cb.outcomes sectorSize c (f, []) buffer).2.2.2 =
        [(buffer.take (c.endAddr - c.curWriteAddr),
            decide ((roundResults cb sectorSize c f buffer).1 ≠ 0)),
          (buffer.drop (c.endAddr - c.curWriteAddr),
            decide ((roundResults cb sectorSize c f buffer).2 ≠ 0))] := by
  rw [persistenceWrite, roundResults, ← hc.sub32_eq]
  dsimp only
  rw [if_neg h]
  exact ⟨rfl, rfl⟩

/-- Of two parts, the second of which is not empty, all bytes are programmed when the calls of the
parts that are not empty succeed. -/
theorem programmedBytes_parts {n : ℕ} (hn : n < buffer.length) (b₁ b₂ : Bool) :
    programmedBytes [(buffer.take n, b₁), (buffer.drop n, b₂)] = buffer ↔
      (n = 0 ∨ b₁ = true) ∧ b₂ = true := by
  have hlen : ∀ bytes : List UInt8, bytes = buffer → bytes.length = buffer.length := fun _ h ↦
    congrArg List.length h
  rcases b₁ with _ | _ <;> rcases b₂ with _ | _
  · refine iff_of_false (fun h ↦ ?_) fun h ↦ by cases h.2
    have := hlen _ h
    rw [programmedBytes] at this
    simp only [Bool.false_eq_true, not_false_eq_true, List.filter_cons_of_neg, List.filter_nil,
      List.flatMap_nil, List.length_nil] at this
    omega
  · have hbytes : programmedBytes [(buffer.take n, false), (buffer.drop n, true)] =
        buffer.drop n := List.append_nil _
    rw [hbytes]
    constructor
    · intro h
      have := hlen _ h
      rw [List.length_drop] at this
      exact ⟨.inl (by omega), rfl⟩
    · rintro ⟨rfl | h, -⟩
      · exact List.drop_zero
      · cases h
  · have hbytes : programmedBytes [(buffer.take n, true), (buffer.drop n, false)] =
        buffer.take n := List.append_nil _
    rw [hbytes]
    refine iff_of_false (fun h ↦ ?_) fun h ↦ by cases h.2
    have := hlen _ h
    rw [List.length_take] at this
    omega
  · have hbytes : programmedBytes [(buffer.take n, true), (buffer.drop n, true)] =
        buffer.take n ++ buffer.drop n := congrArg (_ ++ ·) (List.append_nil _)
    rw [hbytes]
    exact iff_of_true (List.take_append_drop n buffer) ⟨.inr rfl, rfl⟩

/-- **When `persistence_write` reports what happened**: when it stays in its lap (and has something
to write, or its call succeeds), and when it goes round and the calls for both parts succeed. -/
theorem reportsWrite_iff (hc : SectionReached c) (hlen : buffer.length ≤ 0x20000) :
    ReportsWrite cb sectorSize c f buffer ↔
      (buffer = [] → straightResult cb sectorSize c f buffer ≠ 0) ∧
      (c.endAddr < c.curWriteAddr + buffer.length →
        (c.curWriteAddr = c.endAddr ∨ (roundResults cb sectorSize c f buffer).1 ≠ 0) ∧
          (roundResults cb sectorSize c f buffer).2 ≠ 0) := by
  have hplaced := hc.placed
  have hadd := hplaced.add32_eq hlen
  have hce := hplaced.endAddr
  have hle := hplaced.le_end
  by_cases hspace : c.curWriteAddr + buffer.length ≤ c.endAddr
  · obtain ⟨hret, hcalls, hsame⟩ := outcomes_straight cb sectorSize f (hadd.trans_le hspace)
    refine Iff.trans ?_ (and_iff_left fun h ↦ absurd h (Nat.not_lt.2 hspace)).symm
    constructor
    · rintro ⟨hresult, -⟩ hnil
      rw [hret, hcalls, programmedBytes_single] at hresult
      refine hresult.2 ?_
      rw [hnil]
      split <;> rfl
    · intro hok
      constructor
      · rw [hret, hcalls, programmedBytes_single]
        by_cases hr : straightResult cb sectorSize c f buffer ≠ 0
        · rw [if_pos (decide_eq_true hr)]
          exact iff_of_true hr rfl
        · rw [if_neg (fun h ↦ hr (of_decide_eq_true h))]
          exact iff_of_false hr fun h ↦ hr (hok h.symm)
      · intro h
        obtain ⟨hcur, hdata⟩ := hsame (hret.symm.trans h)
        exact ⟨hcur, hdata.trans hplaced.dataEndAddr.symm⟩
  · obtain ⟨hret, hcalls⟩ := outcomes_round cb sectorSize f hplaced
      (fun h ↦ hspace (hadd ▸ h))
    -- going round returns the length, which is not 0
    have hpos : (persistenceWrite cb.outcomes sectorSize c (f, []) buffer).1 ≠ 0 := by
      rw [hret]
      omega
    have hne : buffer ≠ [] := fun h ↦ by
      rw [h, List.length_nil] at hspace
      omega
    have hparts : ReportsWrite cb sectorSize c f buffer ↔
        programmedBytes (persistenceWrite cb.outcomes sectorSize c (f, []) buffer).2.2.2 =
          buffer :=
      ⟨fun h ↦ h.result.1 hpos, fun h ↦ ⟨iff_of_true hpos h, fun h0 ↦ absurd h0 hpos⟩⟩
    rw [hparts, hcalls, programmedBytes_parts (by omega), decide_eq_true_eq, decide_eq_true_eq,
      forall_prop_of_true (Nat.not_le.1 hspace), and_iff_right fun h ↦ absurd h hne,
      show c.endAddr - c.curWriteAddr = 0 ↔ c.curWriteAddr = c.endAddr by omega]

theorem reportsWrite_first : ReportsWrite (norCallbacks boardSectors)
    boardSectors.getFlashSectorSize initialConfig blankMemory [1] :=
  (reportsWrite_iff .initial (by decide)).2 ⟨fun h ↦ (by cases h), fun h ↦ absurd h (by decide)⟩

/-- Callbacks of a flash that cannot be programmed any more. -/
def wornCallbacks : Callbacks Unit where
  writeCb _ _ _ := (0, ())
  readCb _ _ len := (1, List.replicate len 0, ())
  eraseCb _ _ _ := (1, ())

/-- With one byte left in its lap. -/
theorem sectionReached_full : SectionReached (configAt 0x2FFFE) := by
  have hwrite : ∀ (T : ℕ) (buffer : List UInt8), SectionReached (configAt T) →
      buffer.length ≤ 0x20000 → WriteFits (configAt T) buffer.length →
      SectionReached (configAt (T + buffer.length)) := by
    intro T buffer hT hlen hfit
    have hnext := hT.write (norCallbacks boardSectors) boardSectors.getFlashSectorSize blankMemory
      buffer hlen
    rw [persistenceWrite_config boardSectors (flashCallbacks_norCallbacks boardSectors).write_ok
      hfit] at hnext
    exact hnext
  have h₁ := hwrite 0 (List.replicate 0x20000 1) .initial (by rw [List.length_replicate])
    (by rw [List.length_replicate]; decide)
  rw [List.length_replicate] at h₁
  have h₂ := hwrite 0x20000 (List.replicate 0xFFFE 1) h₁ (by rw [List.length_replicate]; decide)
    (by rw [List.length_replicate]; decide)
  rw [List.length_replicate] at h₂
  exact h₂

/-- Two bytes that go round: both calls fail, and the result is 2. -/
theorem not_reportsWrite_worn : SectionReached (configAt 0x2FFFE) ∧
    ¬ ReportsWrite wornCallbacks boardSectors.getFlashSectorSize (configAt 0x2FFFE) () [1, 2] := by
  refine ⟨sectionReached_full, fun h ↦ ?_⟩
  exact absurd (h.result.1 (by decide)) (by decide)

end Mblue
