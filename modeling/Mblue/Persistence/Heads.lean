import Mblue.Persistence.Logger

/-!
# The journal of heads

The head sector has 455 slots. `HeadsUsed i` says that the slots below `i` have been used and
replaced, that slot `i` is the one a restart takes over, and that the rest is blank. Flushing keeps
this in every case (`HeadInv.flush`): also after the index has been set back to 0, when the slots
that are written have been used already and programming them again can only clear more bits.

Only a flush to a blank slot stores the section (`flush_blank`).
-/

namespace Mblue

open NorFlash

/-! ### Words and heads as bytes -/

@[simp] theorem length_wordBytes (w : ℕ) : (wordBytes w).length = 4 := rfl

@[simp] theorem length_toBytes (c : DataSectionInfo) : c.toBytes.length = headSize := rfl

/-- The fields of a section are words. -/
structure DataSectionInfo.Words (c : DataSectionInfo) : Prop where
  startAddr : c.startAddr < 2 ^ 32
  endAddr : c.endAddr < 2 ^ 32
  curWriteAddr : c.curWriteAddr < 2 ^ 32
  curReadAddr : c.curReadAddr < 2 ^ 32
  dataStartAddr : c.dataStartAddr < 2 ^ 32
  dataEndAddr : c.dataEndAddr < 2 ^ 32
  eraseAddr : c.eraseAddr < 2 ^ 32
  magic : c.magic < 2 ^ 32
  valid : c.valid < 2 ^ 32

/-- The bytes of a word make up the word. -/
theorem word_eq {w : ℕ} (h : w < 2 ^ 32) :
    (UInt8.ofNat w).toNat + 256 * (UInt8.ofNat (w / 256)).toNat +
      65536 * (UInt8.ofNat (w / 65536)).toNat + 16777216 * (UInt8.ofNat (w / 16777216)).toNat =
        w := by
  simp only [UInt8.toNat_ofNat']
  omega

theorem wordAt_zero {w : ℕ} (h : w < 2 ^ 32) (bytes : List UInt8) :
    wordAt (wordBytes w ++ bytes) 0 = w := word_eq h

theorem wordAt_add_four (w : ℕ) (bytes : List UInt8) (i : ℕ) :
    wordAt (wordBytes w ++ bytes) (i + 4) = wordAt bytes i := rfl

/-- **A head that is read back is the head that was written.** -/
theorem ofBytes_toBytes {c : DataSectionInfo} (h : c.Words) : .ofBytes c.toBytes = c := by
  -- each field is read at its offset, behind the words before it
  have hbytes : c.toBytes = wordBytes c.startAddr ++ (wordBytes c.endAddr ++
      (wordBytes c.curWriteAddr ++ (wordBytes c.curReadAddr ++ (wordBytes c.dataStartAddr ++
        (wordBytes c.dataEndAddr ++ (wordBytes c.eraseAddr ++ (wordBytes c.magic ++
          (wordBytes c.valid ++ [])))))))) := by
    simp only [DataSectionInfo.toBytes, List.append_assoc, List.append_nil]
  rw [hbytes]
  simp only [DataSectionInfo.ofBytes, wordAt_add_four, wordAt_zero h.startAddr,
    wordAt_zero h.endAddr, wordAt_zero h.curWriteAddr, wordAt_zero h.curReadAddr,
    wordAt_zero h.dataStartAddr, wordAt_zero h.dataEndAddr, wordAt_zero h.eraseAddr,
    wordAt_zero h.magic, wordAt_zero h.valid]

/-- The first seven words of a head. -/
def DataSectionInfo.addrBytes (c : DataSectionInfo) : List UInt8 :=
  wordBytes c.startAddr ++ wordBytes c.endAddr ++ wordBytes c.curWriteAddr ++
    wordBytes c.curReadAddr ++ wordBytes c.dataStartAddr ++ wordBytes c.dataEndAddr ++
    wordBytes c.eraseAddr

theorem toBytes_eq (c : DataSectionInfo) :
    c.toBytes = c.addrBytes ++ (wordBytes c.magic ++ wordBytes c.valid) := by
  rw [DataSectionInfo.toBytes, DataSectionInfo.addrBytes]
  simp only [List.append_assoc]

/-- A word at an offset of a range that is read. -/
theorem wordAt_of_storedAt {m : ℕ → UInt8} {addr i n w : ℕ} (hi : i + 4 ≤ n) (hw : w < 2 ^ 32)
    (h : StoredAt m (addr + i) (wordBytes w)) :
    wordAt ((List.range' addr n).map m) i = w := by
  have hget : ∀ k, k < n → ((List.range' addr n).map m).getD k 0 = m (addr + k) := fun k hk ↦ by
    rw [List.getD_eq_getElem?_getD, List.getElem?_map, List.getElem?_range' hk]
    simp
  rw [wordAt, hget _ (by omega), hget _ (by omega), hget _ (by omega), hget _ (by omega)]
  have h₀ : m (addr + i) = UInt8.ofNat w := h.byteAt_eq (k := 0) rfl
  have h₁ : m (addr + (i + 1)) = UInt8.ofNat (w / 256) := h.byteAt_eq (k := 1) rfl
  have h₂ : m (addr + (i + 2)) = UInt8.ofNat (w / 65536) := h.byteAt_eq (k := 2) rfl
  have h₃ : m (addr + (i + 3)) = UInt8.ofNat (w / 16777216) := h.byteAt_eq (k := 3) rfl
  rw [h₀, h₁, h₂, h₃, word_eq hw]

/-! ### Slots -/

/-- The number of slots. -/
def headSlots : ℕ := 455

theorem isValidHeadIndex_iff {index : ℕ} : isValidHeadIndex index = true ↔ index < headSlots := by
  rw [isValidHeadIndex, decide_eq_true_eq, headSize, logHeadSpaceSize, headSlots]
  omega

/-- A slot that has not been written since the head sector was erased. -/
def SlotBlank (m : ℕ → UInt8) (index : ℕ) : Prop := BlankAt m (slotAddr index) headSize

/-- The word `magic` of a slot. -/
def HasMagic (m : ℕ → UInt8) (index : ℕ) : Prop :=
  StoredAt m (slotAddr index + 28) (wordBytes magicWord)

/-- The word `valid` of a slot that has been written and not replaced. -/
def HasValid (m : ℕ → UInt8) (index : ℕ) : Prop :=
  StoredAt m (slotAddr index + 32) (wordBytes headValidFlag)

/-- The word `valid` of a slot that has been replaced. -/
def HasInvalid (m : ℕ → UInt8) (index : ℕ) : Prop :=
  StoredAt m (slotAddr index + 32) (List.replicate 4 0)

/-- What a restart finds in slot `i`, and what lies before and behind it. -/
structure HeadsUsed (m : ℕ → UInt8) (i : ℕ) : Prop where
  lt : i < headSlots
  magic : ∀ k ≤ i, HasMagic m k
  invalid : ∀ k < i, HasInvalid m k
  valid : HasValid m i
  blank : ∀ k, i < k → k < headSlots → SlotBlank m k

/-- The slots below `n` have been used and replaced, and the rest is blank. -/
structure HeadsClosed (m : ℕ → UInt8) (n : ℕ) : Prop where
  magic : ∀ k < n, HasMagic m k
  invalid : ∀ k < n, HasInvalid m k
  blank : ∀ k, n ≤ k → k < headSlots → SlotBlank m k

/-- The head sector and the index of the next slot, in every state of the logger. -/
def HeadInv (m : ℕ → UInt8) (headIndex : ℕ) : Prop :=
  headIndex = 0 ∧ HeadsClosed m 0 ∨ ∃ i, HeadsUsed m i ∧ headIndex ≤ i + 1

variable {m m' : ℕ → UInt8} {i j k : ℕ} {c : DataSectionInfo}

theorem slotAddr_eq (k : ℕ) : slotAddr k = 0x0800C000 + k * 36 := rfl

/-- A slot with a magic word is not blank. -/
theorem HasMagic.not_slotBlank (h : HasMagic m k) : ¬ SlotBlank m k := fun hblank ↦ by
  have hmagic : m (slotAddr k + 28) = 0x4E := h.byteAt_eq (k := 0) rfl
  have hff := hblank (slotAddr k + 28) (List.mem_range'_1.2 ⟨by omega, by rw [headSize]; omega⟩)
  rw [hmagic] at hff
  exact absurd hff (by decide)

/-! ### What programming does to the slots -/

/-- The word `valid` of a slot is cleared. -/
def Invalidated (m m' : ℕ → UInt8) (k : ℕ) : Prop :=
  Programmed m m' (slotAddr k + headSize - 4) (wordBytes 0)

/-- A head is written to a slot. -/
def HeadWritten (m m' : ℕ → UInt8) (k : ℕ) (c : DataSectionInfo) : Prop :=
  Programmed m m' (slotAddr k) c.toBytes

namespace Invalidated

variable (h : Invalidated m m' k)
include h

theorem hasMagic (hm : HasMagic m j) : HasMagic m' j := by
  refine Programmed.storedAt_of_disjoint h ?_ hm
  rw [slotAddr_eq, slotAddr_eq, length_wordBytes, length_wordBytes, headSize]
  omega

theorem hasValid (hne : j ≠ k) (hv : HasValid m j) : HasValid m' j := by
  refine Programmed.storedAt_of_disjoint h ?_ hv
  rw [slotAddr_eq, slotAddr_eq, length_wordBytes, length_wordBytes, headSize]
  omega

theorem hasInvalid_of (hi : HasInvalid m j) : HasInvalid m' j := Programmed.storedAt_zero h hi

theorem hasInvalid : HasInvalid m' k := by
  have hzero : Programmed m m' (slotAddr k + 32) (List.replicate 4 0) := h
  exact hzero.storedAt_replicate_zero

theorem slotBlank (hne : j ≠ k) (hb : SlotBlank m j) : SlotBlank m' j := by
  refine Programmed.blankAt_of_disjoint h ?_ hb
  rw [slotAddr_eq, slotAddr_eq, length_wordBytes, headSize]
  omega

end Invalidated

namespace HeadWritten

variable (h : HeadWritten m m' k c)
include h

theorem hasInvalid (hi : HasInvalid m j) : HasInvalid m' j := Programmed.storedAt_zero h hi

theorem slotBlank (hne : j ≠ k) (hb : SlotBlank m j) : SlotBlank m' j := by
  refine Programmed.blankAt_of_disjoint h ?_ hb
  rw [slotAddr_eq, slotAddr_eq, length_toBytes, headSize]
  omega

theorem storedAt (hb : SlotBlank m k) : StoredAt m' (slotAddr k) c.toBytes :=
  Programmed.storedAt_of_blankAt h hb

/-- A magic word stays, since the head that is written has the same. -/
theorem hasMagic (hc : c.magic = magicWord) (hm : HasMagic m j) : HasMagic m' j := by
  by_cases hjk : j = k
  · subst hjk
    have hw : HeadWritten m m' j c := h
    rw [HeadWritten, toBytes_eq, hc] at hw
    exact hw.storedAt_self hm
  · refine Programmed.storedAt_of_disjoint h ?_ hm
    rw [slotAddr_eq, slotAddr_eq, length_toBytes, length_wordBytes, headSize]
    omega

theorem hasValid (hc : c.valid = headValidFlag) (hv : HasValid m j) : HasValid m' j := by
  by_cases hjk : j = k
  · subst hjk
    have hsplit : c.toBytes =
        (c.addrBytes ++ wordBytes c.magic) ++ (wordBytes headValidFlag ++ []) := by
      rw [toBytes_eq, hc, List.append_nil, List.append_assoc]
    have hw : HeadWritten m m' j c := h
    rw [HeadWritten, hsplit] at hw
    exact hw.storedAt_self hv
  · refine Programmed.storedAt_of_disjoint h ?_ hv
    rw [slotAddr_eq, slotAddr_eq, length_toBytes, length_wordBytes, headSize]
    omega

end HeadWritten

/-! ### The states of the head sector -/

/-- A slot below the valid one may be cleared again. -/
theorem HeadsUsed.invalidated (hu : HeadsUsed m i) (hk : k < i) (h : Invalidated m m' k) :
    HeadsUsed m' i where
  lt := hu.lt
  magic j hj := h.hasMagic (hu.magic j hj)
  invalid j hj := h.hasInvalid_of (hu.invalid j hj)
  valid := h.hasValid hk.ne' hu.valid
  blank j hij hj := h.slotBlank (by omega) (hu.blank j hij hj)

/-- A slot up to the valid one may be written again. -/
theorem HeadsUsed.headWritten (hu : HeadsUsed m i) (hk : k ≤ i) (hmagic : c.magic = magicWord)
    (hvalid : c.valid = headValidFlag) (h : HeadWritten m m' k c) : HeadsUsed m' i where
  lt := hu.lt
  magic j hj := h.hasMagic hmagic (hu.magic j hj)
  invalid j hj := h.hasInvalid (hu.invalid j hj)
  valid := h.hasValid hvalid hu.valid
  blank j hij hj := h.slotBlank (by omega) (hu.blank j hij hj)

/-- Clearing the valid slot closes it. -/
theorem HeadsUsed.close (hu : HeadsUsed m i) (h : Invalidated m m' i) : HeadsClosed m' (i + 1) where
  magic j hj := h.hasMagic (hu.magic j (by omega))
  invalid j hj := by
    rcases (Nat.lt_succ_iff.1 hj).eq_or_lt with rfl | hlt
    · exact h.hasInvalid
    · exact h.hasInvalid_of (hu.invalid j hlt)
  blank j hij hj := h.slotBlank (by omega) (hu.blank j (by omega) hj)

/-- **The next blank slot takes the head**, and a restart will find it there. -/
theorem HeadsClosed.headWritten (hcl : HeadsClosed m k) (hk : k < headSlots)
    (hmagic : c.magic = magicWord) (hvalid : c.valid = headValidFlag)
    (h : HeadWritten m m' k c) : HeadsUsed m' k ∧ StoredAt m' (slotAddr k) c.toBytes := by
  have hstored := h.storedAt (hcl.blank k le_rfl hk)
  have hwords := hstored
  rw [toBytes_eq, storedAt_append, storedAt_append, hmagic, hvalid] at hwords
  refine ⟨⟨hk, fun j hj ↦ ?_, fun j hj ↦ h.hasInvalid (hcl.invalid j hj), hwords.2.2,
    fun j hkj hj ↦ h.slotBlank (by omega) (hcl.blank j hkj.le hj)⟩, hstored⟩
  rcases hj.eq_or_lt with rfl | hlt
  · exact hwords.2.1
  · exact h.hasMagic hmagic (hcl.magic j hlt)

/-! ### The driver -/

variable {D : Type}

/-- A driver of a NOR flash: writes complete and can only clear bits, an erase sets a whole sector,
reads deliver what is stored. The head sector has 16 KiB, and `_log_clear` names the three
sectors. -/
structure NorDriver (drv : FlashDriver D) (byteAt : D → ℕ → UInt8) : Prop where
  write_complete : ∀ d addr data, (drv.mbFlashWrite d addr data).1 = true
  write : ∀ d addr data,
    Programmed (byteAt d) (byteAt (drv.mbFlashWrite d addr data).2) addr data
  writeWord : ∀ d addr w,
    Programmed (byteAt d) (byteAt (drv.mbFlashWriteWord d addr w)) addr (wordBytes w)
  erase : ∀ d addr len,
    Erased drv.sectors.getFlashSector (byteAt d) (byteAt (drv.mbFlashErase d addr len).2) addr
  read : ∀ d addr len, (drv.mbFlashRead d addr len).2 = (List.range' addr len).map (byteAt d)
  sector5 : drv.flashSector5 = drv.sectors.getFlashSector secondSectorAddr
  head_iff : ∀ a, drv.sectors.getFlashSector a = drv.sectors.getFlashSector flashStartAddr ↔
    flashStartAddr ≤ a ∧ a < flashStartAddr + 0x4000
  addrHead : drv.sectors.getFlashSector drv.flashAddrHead =
    drv.sectors.getFlashSector flashStartAddr
  addrSector1 : drv.sectors.getFlashSector drv.flashAddrSector1 =
    drv.sectors.getFlashSector logStartAddr
  addrSector2 : drv.sectors.getFlashSector drv.flashAddrSector2 =
    drv.sectors.getFlashSector secondSectorAddr

variable {drv : FlashDriver D} {byteAt : D → ℕ → UInt8} {lg : MbLogger} {d : D}

/-- The addresses of a slot lie in the head sector. -/
theorem slot_in_head {a : ℕ} (hk : k < headSlots) (ha : a ∈ List.range' (slotAddr k) headSize) :
    flashStartAddr ≤ a ∧ a < flashStartAddr + 0x4000 := by
  rw [List.mem_range'_1, slotAddr_eq, headSize] at ha
  rw [headSlots] at hk
  rw [flashStartAddr]
  omega

/-- An erased head sector. -/
theorem headsClosed_of_blank (h : ∀ a, flashStartAddr ≤ a → a < flashStartAddr + 0x4000 →
    m a = 0xFF) : HeadsClosed m 0 :=
  ⟨fun _ hk ↦ absurd hk (Nat.not_lt_zero _), fun _ hk ↦ absurd hk (Nat.not_lt_zero _),
    fun _ _ hk a ha ↦ (slot_in_head hk ha).elim (h a)⟩

/-- The driver's device after the slot before the next one has been cleared. -/
def clearedDevice (drv : FlashDriver D) (headIndex : ℕ) (d : D) : D :=
  if 0 < headIndex then setHeadIndexInvalid drv d (headIndex - 1) else d

theorem flushHeadIndex_eq (drv : FlashDriver D) (lg : MbLogger) (d : D) :
    flushHeadIndex drv lg d =
      if isValidHeadIndex lg.headIndex then
        ({ lg with headIndex := lg.headIndex + 1 },
          (drv.mbFlashWrite (clearedDevice drv lg.headIndex d) (slotAddr lg.headIndex)
            lg.config.toBytes).2)
      else
        ({ lg with headIndex := 0 }, (drv.mbFlashErase (clearedDevice drv lg.headIndex d)
          flashStartAddr logHeadSpaceSize).2) := rfl

/-- **After the clearing** either all slots below the next one are closed, or the next one has been
used before. -/
theorem HeadInv.cleared (hnor : NorDriver drv byteAt) {headIndex : ℕ}
    (h : HeadInv (byteAt d) headIndex) :
    HeadsClosed (byteAt (clearedDevice drv headIndex d)) headIndex ∨
      ∃ i, HeadsUsed (byteAt (clearedDevice drv headIndex d)) i ∧ headIndex ≤ i ∧
        HeadsUsed (byteAt d) i := by
  rcases h with ⟨rfl, hblank⟩ | ⟨i, hu, hle⟩
  · exact .inl hblank
  · rcases Nat.eq_zero_or_pos headIndex with rfl | hpos
    · exact .inr ⟨i, hu, Nat.zero_le _, hu⟩
    · have hinv : Invalidated (byteAt d) (byteAt (clearedDevice drv headIndex d))
          (headIndex - 1) := by
        rw [clearedDevice, if_pos hpos]
        exact hnor.writeWord _ _ _
      rcases hle.eq_or_lt with rfl | hlt
      · exact .inl (hu.close hinv)
      · exact .inr ⟨i, hu.invalidated (by omega) hinv, Nat.lt_succ_iff.1 hlt, hu⟩

/-- A flush without a slot left erases the head sector, and writes nothing. -/
theorem flush_full (hnor : NorDriver drv byteAt) (hfull : ¬ isValidHeadIndex lg.headIndex = true) :
    (flushHeadIndex drv lg d).1 = { lg with headIndex := 0 } ∧
      HeadsClosed (byteAt (flushHeadIndex drv lg d).2) 0 := by
  rw [flushHeadIndex_eq, if_neg hfull]
  exact ⟨rfl, headsClosed_of_blank fun a hlo hhi ↦
    (hnor.erase _ _ _).inside a ((hnor.head_iff a).2 ⟨hlo, hhi⟩)⟩

/-- **Flushing keeps the journal**, whichever slot it goes to. -/
theorem HeadInv.flush (hnor : NorDriver drv byteAt) (hmagic : lg.config.magic = magicWord)
    (hvalid : lg.config.valid = headValidFlag) (h : HeadInv (byteAt d) lg.headIndex) :
    HeadInv (byteAt (flushHeadIndex drv lg d).2) (flushHeadIndex drv lg d).1.headIndex := by
  by_cases hslot : isValidHeadIndex lg.headIndex = true
  · rw [flushHeadIndex_eq, if_pos hslot]
    have hwrite : HeadWritten _ _ lg.headIndex lg.config :=
      hnor.write (clearedDevice drv lg.headIndex d) (slotAddr lg.headIndex) lg.config.toBytes
    rcases h.cleared hnor with hcl | ⟨i, hu, hle, -⟩
    · exact .inr ⟨_, (hcl.headWritten (isValidHeadIndex_iff.1 hslot) hmagic hvalid hwrite).1,
        le_rfl⟩
    · exact .inr ⟨i, hu.headWritten hle hmagic hvalid hwrite, Nat.succ_le_succ hle⟩
  · obtain ⟨hlg, hclosed⟩ := flush_full (d := d) hnor hslot
    exact .inl ⟨by rw [hlg], hclosed⟩

/-- **A flush to a blank slot stores the section** where a restart looks for it. -/
theorem HeadInv.flush_blank (hnor : NorDriver drv byteAt) (lg : MbLogger)
    (hmagic : lg.config.magic = magicWord) (hvalid : lg.config.valid = headValidFlag)
    (h : HeadInv (byteAt d) lg.headIndex) (hslot : lg.headIndex < headSlots)
    (hblank : SlotBlank (byteAt d) lg.headIndex) :
    (flushHeadIndex drv lg d).1 = { lg with headIndex := lg.headIndex + 1 } ∧
      HeadsUsed (byteAt (flushHeadIndex drv lg d).2) lg.headIndex ∧
      StoredAt (byteAt (flushHeadIndex drv lg d).2) (slotAddr lg.headIndex)
        lg.config.toBytes := by
  rw [flushHeadIndex_eq, if_pos (isValidHeadIndex_iff.2 hslot)]
  have hwrite : HeadWritten _ _ lg.headIndex lg.config :=
    hnor.write (clearedDevice drv lg.headIndex d) (slotAddr lg.headIndex) lg.config.toBytes
  rcases h.cleared hnor with hcl | ⟨i, -, hle, hu⟩
  · exact ⟨rfl, hcl.headWritten hslot hmagic hvalid hwrite⟩
  · exact absurd hblank (hu.magic _ hle).not_slotBlank

/-- A flush leaves everything behind the head sector alone. -/
theorem flush_outside (hnor : NorDriver drv byteAt) (lg : MbLogger)
    (hidx : lg.headIndex ≤ headSlots) {a : ℕ} (ha : logStartAddr ≤ a) :
    byteAt (flushHeadIndex drv lg d).2 a = byteAt d a := by
  have hstart : logStartAddr = 0x08010000 := rfl
  rw [headSlots] at hidx
  have hclear : byteAt (clearedDevice drv lg.headIndex d) a = byteAt d a := by
    rw [clearedDevice]
    split
    · refine (hnor.writeWord _ _ _).outside a fun hmem ↦ ?_
      rw [List.mem_range'_1, slotAddr_eq, length_wordBytes, headSize] at hmem
      omega
    · rfl
  rw [flushHeadIndex_eq, ← hclear]
  split
  · next hslot =>
    have hlt := isValidHeadIndex_iff.1 hslot
    rw [headSlots] at hlt
    refine (hnor.write _ _ _).outside a fun hmem ↦ ?_
    rw [List.mem_range'_1, slotAddr_eq, length_toBytes, headSize] at hmem
    omega
  · refine (hnor.erase _ _ _).outside a fun heq ↦ ?_
    have := ((hnor.head_iff a).1 heq).2
    rw [flashStartAddr] at this
    omega

theorem HeadInv.le (h : HeadInv m i) : i ≤ headSlots := by
  rcases h with ⟨rfl, -⟩ | ⟨j, hu, hle⟩
  · exact Nat.zero_le _
  · exact hle.trans hu.lt

/-- The index may be set back to 0. -/
theorem HeadInv.reset (h : HeadInv m i) : HeadInv m 0 := by
  rcases h with ⟨-, hblank⟩ | ⟨j, hu, -⟩
  · exact .inl ⟨rfl, hblank⟩
  · exact .inr ⟨j, hu, Nat.zero_le _⟩

/-- Two memories with the same head sector. -/
def SameHead (m m' : ℕ → UInt8) : Prop :=
  ∀ a, flashStartAddr ≤ a → a < flashStartAddr + 0x4000 → m' a = m a

theorem SameHead.storedAt (h : SameHead m m') {off : ℕ} {data : List UInt8} (hk : k < headSlots)
    (hoff : off + data.length ≤ headSize) (hs : StoredAt m (slotAddr k + off) data) :
    StoredAt m' (slotAddr k + off) data := by
  refine hs.congr fun a ha ↦ ?_
  rw [List.mem_range'_1] at ha
  have hslot := slot_in_head (a := a) hk (List.mem_range'_1.2 (by omega))
  exact h a hslot.1 hslot.2

theorem SameHead.slotBlank (h : SameHead m m') (hk : k < headSlots) (hb : SlotBlank m k) :
    SlotBlank m' k :=
  hb.congr fun a ha ↦ h a (slot_in_head hk ha).1 (slot_in_head hk ha).2

/-- The journal only depends on the head sector. -/
theorem HeadInv.congr (h : HeadInv m i) (hsame : SameHead m m') : HeadInv m' i := by
  rcases h with ⟨rfl, hcl⟩ | ⟨j, hu, hle⟩
  · exact .inl ⟨rfl, fun _ hk ↦ absurd hk (Nat.not_lt_zero _),
      fun _ hk ↦ absurd hk (Nat.not_lt_zero _), fun k hk hk' ↦
        hsame.slotBlank hk' (hcl.blank k hk hk')⟩
  · have hlt := hu.lt
    exact .inr ⟨j, ⟨hlt, fun k hk ↦ hsame.storedAt (hk.trans_lt hlt) (by decide) (hu.magic k hk),
      fun k hk ↦ hsame.storedAt (hk.trans hlt) (by decide) (hu.invalid k hk),
      hsame.storedAt hlt (by decide) hu.valid, fun k hk hk' ↦
        hsame.slotBlank hk' (hu.blank k hk hk')⟩, hle⟩

end Mblue
