import Mblue.Persistence.Heads

/-!
# What a restart does

The boot code on a head sector in one of its states. From blank flash it writes the initial section
to slot 0 (`loggerInv_boot`). With a valid slot it takes over the head in it
(`findValidHeadIndex_used`), and then probes the eight bytes at the write position: if they are
blank nothing is touched (`getLogInstance_used`), otherwise the flash is cleared
(`erase_mem_of_not_probe`).
-/

namespace Mblue

open NorFlash

variable {D : Type} {drv : FlashDriver D} {byteAt : D → ℕ → UInt8} {lg : MbLogger} {d : D}
  {i k : ℕ} {c : DataSectionInfo}

/-! ### Heads that are read -/

theorem readHead_magic (hnor : NorDriver drv byteAt) (h : HasMagic (byteAt d) k) :
    (readHead drv d k).magic = magicWord := by
  rw [readHead, hnor.read]
  exact wordAt_of_storedAt (by decide) (by decide) h

theorem readHead_valid (hnor : NorDriver drv byteAt) (h : HasValid (byteAt d) k) :
    (readHead drv d k).valid = headValidFlag := by
  rw [readHead, hnor.read]
  exact wordAt_of_storedAt (by decide) (by decide) h

theorem readHead_invalid (hnor : NorDriver drv byteAt) (h : HasInvalid (byteAt d) k) :
    (readHead drv d k).valid = 0 := by
  rw [readHead, hnor.read]
  exact wordAt_of_storedAt (by decide) (by decide) h

/-- A blank slot does not look like a head. -/
theorem readHead_blank (hnor : NorDriver drv byteAt) (h : SlotBlank (byteAt d) k) :
    (readHead drv d k).magic = 0xFFFFFFFF := by
  rw [readHead, hnor.read]
  refine wordAt_of_storedAt (by decide) (by decide) fun b hb ↦ ?_
  have hmem := fst_mem_range' hb
  rw [List.mem_range'_1, length_wordBytes] at hmem
  rw [h b.1 (List.mem_range'_1.2 (by rw [headSize]; omega))]
  have hdata : b.2 ∈ List.replicate 4 0xFF := (snd_mem hb : b.2 ∈ wordBytes 0xFFFFFFFF)
  exact (List.eq_of_mem_replicate hdata).symm

theorem readHead_stored (hnor : NorDriver drv byteAt) (hc : c.Words)
    (h : StoredAt (byteAt d) (slotAddr k) c.toBytes) : readHead drv d k = c := by
  rw [readHead, hnor.read, ← length_toBytes c, h.map_range', ofBytes_toBytes hc]

/-- **The boot code finds the valid slot.** -/
theorem findValidHeadIndex_used (hnor : NorDriver drv byteAt) (hu : HeadsUsed (byteAt d) i)
    (hle : lg.headIndex ≤ i) :
    findValidHeadIndex drv lg d = (true, { config := readHead drv d i, headIndex := i + 1 }) := by
  induction hn : i - lg.headIndex generalizing lg with
  | zero =>
    obtain rfl : lg.headIndex = i := by omega
    rw [findValidHeadIndex, if_pos (isValidHeadIndex_iff.2 hu.lt)]
    exact if_pos ⟨readHead_magic hnor (hu.magic _ le_rfl), readHead_valid hnor hu.valid⟩
  | succ n ih =>
    have hlt : lg.headIndex < i := by omega
    have hinvalid : ¬ (readHead drv d lg.headIndex).valid = headValidFlag := by
      rw [readHead_invalid hnor (hu.invalid _ hlt)]
      decide
    rw [findValidHeadIndex, if_pos (isValidHeadIndex_iff.2 (hlt.trans hu.lt))]
    dsimp only
    rw [if_neg (fun h ↦ hinvalid h.2)]
    exact ih (show lg.headIndex + 1 ≤ i by omega) (show i - (lg.headIndex + 1) = n by omega)

/-! ### The probe -/

/-- The probe at the write position finds blank flash, or there is nothing to probe. -/
def ProbeOk (m : ℕ → UInt8) (c : DataSectionInfo) : Prop :=
  c.startAddr ≤ c.curWriteAddr ∧ c.curWriteAddr < c.endAddr →
    add32 c.curWriteAddr 8 ≤ c.endAddr → BlankAt m c.curWriteAddr 8

theorem isValidFlashSpace_iff (hnor : NorDriver drv byteAt) {addr len : ℕ} :
    isValidFlashSpace (drv.mbFlashRead d addr len).2 = true ↔ BlankAt (byteAt d) addr len := by
  rw [hnor.read, isValidFlashSpace, List.all_eq_true]
  simp only [List.mem_map, forall_exists_index, and_imp, forall_apply_eq_imp_iff₂,
    decide_eq_true_eq]
  rfl

theorem confirm_of_probe (hnor : NorDriver drv byteAt) (lg : MbLogger)
    (h : ProbeOk (byteAt d) lg.config) :
    confirmHeadAndDataSectionValid drv lg d = (lg, d) := by
  rw [confirmHeadAndDataSectionValid]
  split
  · next hin =>
    split
    · next hroom => rw [if_pos ((isValidFlashSpace_iff hnor).2 (h hin hroom))]
    · rfl
  · rfl

theorem confirm_of_not_probe (hnor : NorDriver drv byteAt) (lg : MbLogger)
    (h : ¬ ProbeOk (byteAt d) lg.config) :
    confirmHeadAndDataSectionValid drv lg d = clearAndFlush drv lg d := by
  obtain ⟨hin, h⟩ := Classical.not_imp.1 h
  obtain ⟨hroom, h⟩ := Classical.not_imp.1 h
  rw [confirmHeadAndDataSectionValid]
  rw [if_pos hin, if_pos hroom, if_neg (fun hok ↦ h ((isValidFlashSpace_iff hnor).1 hok))]

/-- A restart with a valid slot comes down to the probe. -/
theorem getLogInstance_used (hnor : NorDriver drv byteAt) (hu : HeadsUsed (byteAt d) i)
    (hc : c.Words) (hs : StoredAt (byteAt d) (slotAddr i) c.toBytes) :
    getLogInstance drv d =
      confirmHeadAndDataSectionValid drv { config := c, headIndex := i + 1 } d := by
  have hfind : findValidHeadIndex drv { config := initialConfig, headIndex := 0 } d = _ :=
    findValidHeadIndex_used hnor hu (Nat.zero_le _)
  have hmagic := readHead_magic hnor (hu.magic 0 (Nat.zero_le _))
  rw [getLogInstance, initCheck, if_neg (not_not.2 hmagic), hfind, readHead_stored hnor hc hs]
  rfl

/-- A restart on an erased head sector clears the flash. -/
theorem getLogInstance_blank (hnor : NorDriver drv byteAt) (h : SlotBlank (byteAt d) 0) :
    getLogInstance drv d = clearAndFlush drv { config := initialConfig, headIndex := 0 } d := by
  have hne : (readHead drv d 0).magic ≠ magicWord := by
    rw [readHead_blank hnor h]
    decide
  rw [getLogInstance, initCheck, if_pos hne]

/-! ### The record of a driver -/

theorem NorDriver.record (hnor : NorDriver drv byteAt) :
    NorDriver drv.record fun s ↦ byteAt s.1 where
  write_complete _ _ _ := hnor.write_complete _ _ _
  write _ _ _ := hnor.write _ _ _
  writeWord _ _ _ := hnor.writeWord _ _ _
  erase _ _ _ := hnor.erase _ _ _
  read _ _ _ := hnor.read _ _ _
  sector5 := hnor.sector5
  head_iff := hnor.head_iff
  addrHead := hnor.addrHead
  addrSector1 := hnor.addrSector1
  addrSector2 := hnor.addrSector2

/-- Clearing erases the first sector of the log. -/
theorem erase_mem_clearAndFlush (drv : FlashDriver D) (lg : MbLogger) (s : D × List (Access UInt8)) :
    .erase drv.flashAddrSector1 ∈ (clearAndFlush drv.record lg s).2.2 := by
  have hclear : .erase drv.flashAddrSector1 ∈ (logClear drv.record s).2 := by
    show .erase drv.flashAddrSector1 ∈ s.2 ++ [.erase drv.flashAddrHead] ++
      [.erase drv.flashAddrSector1] ++ [.erase drv.flashAddrSector2]
    simp
  have hcleared : .erase drv.flashAddrSector1 ∈
      (clearedDevice drv.record lg.headIndex (logClear drv.record s)).2 := by
    rw [clearedDevice]
    split
    · exact List.mem_append_left _ hclear
    · exact hclear
  rw [clearAndFlush, flushHeadIndex_eq]
  split
  · exact List.mem_append_left _ hcleared
  · exact List.mem_append_left _ hcleared

end Mblue
