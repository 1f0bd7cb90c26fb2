import Mblue.Persistence.LoggerRuns

/-!
# A clean restart of the flash log

What a restart makes of the journal after a run of `_log_write` calls of up to 64 KiB from blank
flash. It loses the log in three situations: the last flush found the head sector full and erased it
without writing the section; the write position is within eight bytes of the second sector, which
still holds the data of the lap before, so that the probe takes it for garbage; and the last slot
has been used, which leaves no slot for the next flush. When `head_index` has been set back to 0
because the second sector was erased, the heads go to slots that have been used, and until they have
passed the last of these a restart takes over whatever is in the old valid slot.
-/

namespace Mblue

open NorFlash

variable {D : Type} {drv : FlashDriver D} {byteAt : D → ℕ → UInt8} {lg : MbLogger} {d : D}
  {T : ℕ} {m m' : ℕ → UInt8} {buffer : List UInt8}

/-! ### What the probe will find -/

/-- A write of `len` bytes ends on a lap whose second sector has not been erased yet. -/
def EndsBeforeErase (c : DataSectionInfo) (len : ℕ) : Prop :=
  c.endAddr < c.curWriteAddr + len ∨
    c.eraseAddr = secondSectorAddr ∧ c.curWriteAddr + len ≤ secondSectorAddr

instance instDecidableEndsBeforeErase (c : DataSectionInfo) (len : ℕ) :
    Decidable (EndsBeforeErase c len) :=
  inferInstanceAs (Decidable (c.endAddr < c.curWriteAddr + len ∨
    c.eraseAddr = secondSectorAddr ∧ c.curWriteAddr + len ≤ secondSectorAddr))

/-- Where the next write starts behind one of `len` bytes. -/
def nextWriteAddr (c : DataSectionInfo) (len : ℕ) : ℕ :=
  if c.endAddr < c.curWriteAddr + len then c.startAddr + (c.curWriteAddr + len - c.endAddr)
  else c.curWriteAddr + len

/-- What is old of the eight bytes behind a write of `len` bytes reads as blank flash. -/
def ProbeClear (m : ℕ → UInt8) (c : DataSectionInfo) (len : ℕ) : Prop :=
  EndsBeforeErase c len →
    ∀ a, secondSectorAddr ≤ a → a < nextWriteAddr c len + 8 → m a = 0xFF

/-- The next write starts behind the position after `T + len` bytes. -/
theorem nextWriteAddr_configAt {len : ℕ} (hlen : len ≤ 0x10000) :
    nextWriteAddr (configAt T) len = logStartAddr + position (T + len) := by
  obtain ⟨hstart, -, hend⟩ := addresses
  have hlog : logSpace = 0x2FFFF := rfl
  show (if logEndAddr < logStartAddr + position T + len then
    logStartAddr + (logStartAddr + position T + len - logEndAddr) else
      logStartAddr + position T + len) = _
  have hpos := position_le T
  split
  · next hwrap =>
    rw [position_add_of_lt (by omega) (by omega)]
    omega
  · next hstay =>
    rw [position_add (by omega)]
    omega

theorem endsBeforeErase_iff {len : ℕ} (hlen : len ≤ 0x10000) :
    EndsBeforeErase (configAt T) len ↔ logSpace < T + len ∧ position (T + len) ≤ 0x10000 := by
  obtain ⟨hstart, hsecond, hend⟩ := addresses
  have hlog : logSpace = 0x2FFFF := rfl
  have hpos := position_le T
  have hiff : EndsBeforeErase (configAt T) len ↔ logEndAddr < logStartAddr + position T + len ∨
      frontier T = secondSectorAddr ∧ logStartAddr + position T + len ≤ secondSectorAddr := Iff.rfl
  rw [hiff]
  by_cases hwrap : logSpace < position T + len
  · have hp := position_add_of_lt hwrap (by omega)
    exact iff_of_true (.inl (by omega)) ⟨lt_add_of_wrap hwrap, by omega⟩
  · have hp := position_add (Nat.not_lt.1 hwrap)
    rw [or_iff_right (by omega), hp]
    rcases lap_cases T with hT | ⟨hT, hlow⟩ | ⟨hT, hhigh⟩
    · rw [frontier_first hT]
      rw [position_of_le hT] at hwrap
      exact iff_of_false (fun h ↦ absurd h.1 (by decide)) fun h ↦ hwrap h.1
    · rw [frontier_low hT hlow]
      constructor
      · exact fun h ↦ ⟨by omega, by omega⟩
      · exact fun h ↦ ⟨rfl, by omega⟩
    · rw [frontier_high hT hhigh]
      exact iff_of_false (fun h ↦ absurd h.1 (by decide)) fun h ↦ by omega

/-- **What the probe finds** after `T` bytes: everything behind the write position is blank, but for
the old data of the second sector. -/
theorem probeOk_iff (hlog : StoresLog T m) :
    ProbeOk m (configAt T) ↔ (logSpace < T ∧ position T ≤ 0x10000 →
      ∀ a, secondSectorAddr ≤ a → a < logStartAddr + position T + 8 → m a = 0xFF) := by
  obtain ⟨hstart, hsecond, hend⟩ := addresses
  have hspace : logSpace = 0x2FFFF := rfl
  have hpos := position_le T
  obtain ⟨kept, hholds, hkept⟩ := hlog
  have hblank : ∀ a, logStartAddr + position T ≤ a → a < logEndAddr → a ∉ keptAddrs T →
      m a = 0xFF := fun a hlo hhi hna ↦ by
    rw [← hkept] at hna
    exact hholds.blank a ⟨by omega, hhi⟩ hna
  have hadd : add32 (configAt T).curWriteAddr 8 = logStartAddr + position T + 8 :=
    add32_of_lt (show logStartAddr + position T + 8 < 2 ^ 32 by omega)
  have hprobe : ProbeOk m (configAt T) ↔ (logStartAddr + position T < logEndAddr →
      logStartAddr + position T + 8 ≤ logEndAddr → BlankAt m (logStartAddr + position T) 8) := by
    rw [ProbeOk, hadd]
    exact ⟨fun h hlt hle ↦ h ⟨Nat.le_add_right _ _, hlt⟩ hle, fun h hin hle ↦ h hin.2 hle⟩
  rw [hprobe]
  constructor
  · rintro h ⟨-, hlow⟩ a hlo hhi
    exact h (by omega) (by omega) a (List.mem_range'_1.2 ⟨by omega, hhi⟩)
  · intro h _ hle a ha
    rw [List.mem_range'_1] at ha
    by_cases hold : (logSpace < T ∧ position T ≤ 0x10000) ∧ secondSectorAddr ≤ a
    · exact h hold.1 a hold.2 ha.2
    · refine hblank a ha.1 (by omega) fun hmem ↦ ?_
      rcases lap_cases T with hT | ⟨hT, hlow⟩ | ⟨-, hhigh⟩
      · rw [keptAddrs_of (.inl hT), List.mem_range'_1] at hmem
        omega
      · rw [keptAddrs_low hT hlow, List.mem_append, List.mem_range'_1, List.mem_range'_1] at hmem
        omega
      · rw [keptAddrs_of (.inr hhigh), List.mem_range'_1] at hmem
        omega

/-- A write that ends on a lap whose second sector is still the old one leaves its first bytes
alone. -/
theorem spares_of_endsBeforeErase (hlen : buffer.length ≤ 0x10000)
    (hlow : position (T + buffer.length) ≤ 0x10000) {a : ℕ}
    (hlo : secondSectorAddr ≤ a) (hhi : a < logStartAddr + position (T + buffer.length) + 8) :
    ∀ x ∈ writeAccesses (configAt T) buffer, Spares drv a x := by
  obtain ⟨hstart, hsecond, hend⟩ := addresses
  have hlog : logSpace = 0x2FFFF := rfl
  have hpos := position_le T
  intro x hx
  cases writeCase_of_writeFits (writeFits_of_le hlen) with
  | plain hspace hahead =>
    have hp := position_add hspace
    rw [configAt, writeAccesses_plain hspace hahead] at hx
    rw [List.mem_singleton.1 hx]
    intro hmem
    rw [List.mem_range'_1] at hmem
    omega
  | erasing hT' hlow' hcross hspace =>
    have hp := position_add hspace
    omega
  | wrapping hT' hwrap hspill =>
    have hp := position_add_of_lt hwrap hspill
    rw [configAt, writeAccesses_wrapping hpos hwrap (by omega)] at hx
    simp only [List.mem_cons, List.not_mem_nil, or_false] at hx
    rcases hx with rfl | rfl | rfl
    · intro hmem
      rw [List.mem_range'_1] at hmem
      omega
    · intro heq
      have := ((drv.sectors.first_iff a).1 heq).2
      omega
    · intro hmem
      rw [List.mem_range'_1, List.length_drop] at hmem
      omega

/-- **The probe after a `_log_write`**, told from the state before it. -/
theorem probeOk_logWrite_iff (hnor : NorDriver drv byteAt) (hs : LoggerInv byteAt T (lg, d))
    {timer entry : List UInt8} (hlen : (entryText timer entry).length ≤ 0x10000) :
    ProbeOk (byteAt (logWrite drv lg d timer entry).2.2)
        (configAt (T + (entryText timer entry).length)) ↔
      ProbeClear (byteAt d) lg.config (entryText timer entry).length := by
  have hconfig : lg.config = configAt T := hs.config
  have hmid := hs.midWrite hnor hlen
  have hidx : (beforeFlush drv lg d (entryText timer entry)).1.headIndex ≤ headSlots :=
    hmid.headIndex ▸ (hs.heads.slotFor _).le
  rw [probeOk_iff (hs.logWrite hnor hlen).log, hconfig, ProbeClear, endsBeforeErase_iff hlen,
    nextWriteAddr_configAt hlen]
  refine forall_congr' fun hlow ↦ forall_congr' fun a ↦ forall_congr' fun hlo ↦
    forall_congr' fun hhi ↦ ?_
  have hstart : logStartAddr ≤ a := le_trans (by decide) hlo
  have hflush := flush_outside (d := (beforeFlush drv lg d (entryText timer entry)).2) hnor _ hidx
    hstart
  have hwrite := hmid.follows.frame (v := fun s ↦ byteAt s.1 a)
    (fun _ _ _ hb hx ↦ hx.byteAt_eq hb) (spares_of_endsBeforeErase hlen hlow.2 hlo hhi)
  rw [logWrite_snd, hflush]
  exact iff_of_eq (congrArg (· = 0xFF) hwrite)

/-! ### The restart -/

/-- A restart with the flash as it is takes over the section, leaves the next flush a blank slot and
erases no sector of the log. -/
structure LosslessRestart (drv : FlashDriver D) (byteAt : D → ℕ → UInt8) (s : MbLogger × D) :
    Prop where
  config : (getLogInstance drv.record (s.2, [])).1.config = s.1.config
  slot_valid : isValidHeadIndex (getLogInstance drv.record (s.2, [])).1.headIndex = true
  slot_blank : SlotBlank (byteAt (getLogInstance drv.record (s.2, [])).2.1)
    (getLogInstance drv.record (s.2, [])).1.headIndex
  no_erase : ∀ addr, .erase addr ∈ (getLogInstance drv.record (s.2, [])).2.2 →
    drv.sectors.getFlashSector addr ≠ drv.sectors.getFlashSector logStartAddr ∧
      drv.sectors.getFlashSector addr ≠ drv.sectors.getFlashSector secondSectorAddr

/-- A restart that clears the flash is not lossless. -/
theorem not_losslessRestart_of_clear (hnor : NorDriver drv byteAt) {s : MbLogger × D}
    {lg' : MbLogger}
    (h : getLogInstance drv.record (s.2, []) = clearAndFlush drv.record lg' (s.2, [])) :
    ¬ LosslessRestart drv byteAt s := fun hall ↦ by
  have hmem := erase_mem_clearAndFlush drv lg' (s.2, [])
  rw [← h] at hmem
  exact (hall.no_erase _ hmem).1 hnor.addrSector1

theorem words_configAt (T : ℕ) : (configAt T).Words := by
  obtain ⟨hstart, hsecond, hend⟩ := addresses
  have hspace : logSpace = 0x2FFFF := rfl
  have hpos := position_le T
  have hcur : logStartAddr + position T < 2 ^ 32 := by omega
  have hfront : frontier T < 2 ^ 32 := by
    rw [frontier]
    split
    · decide
    · split <;> decide
  have hdata : (configAt T).dataStartAddr < 2 ^ 32 := by
    show (if T ≤ logSpace then logStartAddr else frontier T) < 2 ^ 32
    split
    · decide
    · exact hfront
  exact ⟨(by decide : logStartAddr < 2 ^ 32), (by decide : logEndAddr < 2 ^ 32), hcur,
    (by decide : logStartAddr < 2 ^ 32), hdata, hcur, hfront, (by decide : magicWord < 2 ^ 32),
    (by decide : headValidFlag < 2 ^ 32)⟩

/-- A restart that finds the section in a valid slot is lossless when there is a slot left and the
probe finds blank flash. -/
theorem losslessRestart_iff_of_used (hnor : NorDriver drv byteAt) {s : MbLogger × D} {i : ℕ}
    (hused : HeadsUsed (byteAt s.2) i) (hc : s.1.config.Words)
    (hstored : StoredAt (byteAt s.2) (slotAddr i) s.1.config.toBytes) :
    LosslessRestart drv byteAt s ↔
      isValidHeadIndex (i + 1) = true ∧ ProbeOk (byteAt s.2) s.1.config := by
  have hboot := getLogInstance_used (d := (s.2, [])) hnor.record hused hc hstored
  by_cases hprobe : ProbeOk (byteAt s.2) s.1.config
  · rw [confirm_of_probe hnor.record ⟨s.1.config, i + 1⟩ hprobe] at hboot
    constructor
    · intro hall
      have hvalid := hall.slot_valid
      rw [hboot] at hvalid
      exact ⟨hvalid, hprobe⟩
    · rintro ⟨hvalid, -⟩
      have hslot := hused.blank (i + 1) (Nat.lt_succ_self i) (isValidHeadIndex_iff.1 hvalid)
      refine ⟨?_, ?_, ?_, fun addr hmem ↦ ?_⟩
      · rw [hboot]
      · rw [hboot]
        exact hvalid
      · rw [hboot]
        exact hslot
      · rw [hboot] at hmem
        exact absurd hmem List.not_mem_nil
  · rw [confirm_of_not_probe hnor.record ⟨s.1.config, i + 1⟩ hprobe] at hboot
    exact iff_of_false (not_losslessRestart_of_clear hnor hboot) fun hall ↦ hprobe hall.2

/-- **When a restart after a `_log_write` is lossless**: where the flush does not meet a slot that
has been used, exactly when it leaves another slot and the probe finds no old data. -/
theorem losslessRestart_logWrite_iff (hnor : NorDriver drv byteAt)
    (hs : LoggerInv byteAt T (lg, d)) {timer entry : List UInt8}
    (hlen : (entryText timer entry).length ≤ 0x10000)
    (hslot : isValidHeadIndex (slotFor lg (entryText timer entry).length) = true →
      SlotBlank (byteAt d) (slotFor lg (entryText timer entry).length)) :
    LosslessRestart drv byteAt (logWrite drv lg d timer entry).2 ↔
      isValidHeadIndex (slotFor lg (entryText timer entry).length + 1) = true ∧
        ProbeClear (byteAt d) lg.config (entryText timer entry).length := by
  have hmid := hs.midWrite hnor hlen
  have hheads := (hs.heads.slotFor (entryText timer entry).length).congr hmid.same
  have hprobe := probeOk_logWrite_iff hnor hs hlen
  rw [logWrite_snd] at hprobe ⊢
  have hmagic := (congrArg DataSectionInfo.magic hmid.config).trans (configAt_magic _)
  have hvalid := (congrArg DataSectionInfo.valid hmid.config).trans (configAt_valid _)
  rw [← hmid.headIndex] at hheads hslot ⊢
  rw [← hmid.config] at hprobe
  by_cases hfree : isValidHeadIndex (beforeFlush drv lg d (entryText timer entry)).1.headIndex = true
  · have hlt := isValidHeadIndex_iff.1 hfree
    obtain ⟨hlg, hused, hstored⟩ := hheads.flush_blank hnor _ hmagic hvalid hlt
      (hmid.same.slotBlank hlt (hslot hfree))
    have hconfig : (flushHeadIndex drv (beforeFlush drv lg d (entryText timer entry)).1
        (beforeFlush drv lg d (entryText timer entry)).2).1.config =
          (beforeFlush drv lg d (entryText timer entry)).1.config := by rw [hlg]
    rw [← hprobe, ← hconfig]
    rw [← hconfig] at hstored
    exact losslessRestart_iff_of_used hnor hused
      (by rw [hconfig, hmid.config]; exact words_configAt _) hstored
  · obtain ⟨-, hclosed⟩ := flush_full (d := (beforeFlush drv lg d (entryText timer entry)).2) hnor
      hfree
    have hblank := hclosed.blank 0 le_rfl (by decide)
    refine iff_of_false (not_losslessRestart_of_clear hnor
      (getLogInstance_blank hnor.record hblank)) fun hall ↦ ?_
    have := isValidHeadIndex_iff.1 hall.1
    exact hfree (isValidHeadIndex_iff.2 (by omega))

/-- **When a restart is lossless**, in every run of `_log_write` calls of up to 64 KiB from blank
flash: where the last flush does not meet a slot that has been used, exactly when it leaves another
slot and the eight bytes behind the log hold no old data. -/
theorem losslessRestart_iff (hnor : NorDriver drv byteAt) (hblank : FlashBlank (byteAt d))
    {entries : List (List UInt8 × List UInt8)} {timer entry : List UInt8} {s : MbLogger × D}
    (hrun : logWrites drv (getLogInstance drv d) entries = s)
    (hlen : ∀ e ∈ entries ++ [(timer, entry)], (entryText e.1 e.2).length ≤ 0x10000)
    (hslot : isValidHeadIndex (slotFor s.1 (entryText timer entry).length) = true →
      SlotBlank (byteAt s.2) (slotFor s.1 (entryText timer entry).length)) :
    LosslessRestart drv byteAt
        (logWrites drv (getLogInstance drv d) (entries ++ [(timer, entry)])) ↔
      isValidHeadIndex (slotFor s.1 (entryText timer entry).length + 1) = true ∧
        ProbeClear (byteAt s.2) s.1.config (entryText timer entry).length := by
  have hinv := loggerInv_logWrites hnor (loggerInv_boot hnor hblank).1
    fun e he ↦ hlen e (List.mem_append_left _ he)
  rw [logWrites, List.foldl_append]
  rw [logWrites] at hrun
  rw [logWrites, hrun] at hinv
  rw [hrun]
  exact losslessRestart_logWrite_iff hnor hinv
    (hlen (timer, entry) (List.mem_append_right _ (List.mem_singleton_self _))) hslot

/-- A driver of a memory with the sectors of the board. -/
def ramDriver : FlashDriver (ℕ → UInt8) where
  mbFlashRead m addr len := (1, (List.range' addr len).map m)
  mbFlashWrite m addr data := (true, program m addr data)
  mbFlashWriteWord m addr w := program m addr (wordBytes w)
  mbFlashErase m addr _ := (true, eraseSector boardSectors.getFlashSector m addr)
  sectors := boardSectors
  flashSector5 := 5
  flashAddrHead := flashStartAddr
  flashAddrSector1 := logStartAddr
  flashAddrSector2 := secondSectorAddr

theorem norDriver_ramDriver : NorDriver ramDriver fun m ↦ m where
  write_complete _ _ _ := rfl
  write m addr data := programmed_program m addr data
  writeWord m addr w := programmed_program m addr (wordBytes w)
  erase m addr _ := erased_eraseSector m addr
  read _ _ _ := rfl
  sector5 := rfl
  head_iff a := by
    show (if a < 0x08010000 then (a - 0x08000000) / 0x4000 else _) = 3 ↔
      0x0800C000 ≤ a ∧ a < 0x0800C000 + 0x4000
    split
    · omega
    · split <;> omega
  addrHead := rfl
  addrSector1 := rfl
  addrSector2 := rfl

/-- The text of the time stamp 2000-1-1 0:0:0. -/
def newYearText : List UInt8 :=
  [0x32, 0x30, 0x30, 0x30, 0x2D, 0x31, 0x2D, 0x31, 0x20, 0x30, 0x3A, 0x30, 0x3A, 0x30]

theorem loggerInv_ram :
    LoggerInv (fun m ↦ m) 0 (getLogInstance ramDriver blankMemory) ∧
      (getLogInstance ramDriver blankMemory).1.headIndex = 1 ∧
      HeadsUsed (getLogInstance ramDriver blankMemory).2 0 :=
  loggerInv_boot norDriver_ramDriver fun _ _ _ ↦ rfl

theorem losslessRestart_one : LosslessRestart ramDriver (fun m ↦ m)
    (logWrites ramDriver (getLogInstance ramDriver blankMemory)
      ([] ++ [(newYearText, [0x61])])) := by
  obtain ⟨hinv, hindex, hused⟩ := loggerInv_ram
  have hslot : slotFor (getLogInstance ramDriver blankMemory).1
      (entryText newYearText [0x61]).length = 1 := by
    rw [slotFor, hinv.config, hindex]
    decide
  have hprobe : ProbeClear (getLogInstance ramDriver blankMemory).2
      (getLogInstance ramDriver blankMemory).1.config
      (entryText newYearText [0x61]).length := by
    rw [hinv.config]
    exact fun hends ↦ absurd hends (by decide)
  have hslotBlank : SlotBlank (getLogInstance ramDriver blankMemory).2
      (slotFor (getLogInstance ramDriver blankMemory).1
        (entryText newYearText [0x61]).length) := by
    rw [hslot]
    exact hused.blank 1 Nat.one_pos (by decide)
  have hleft : isValidHeadIndex (slotFor (getLogInstance ramDriver blankMemory).1
      (entryText newYearText [0x61]).length + 1) = true := by
    rw [hslot]
    decide
  exact (losslessRestart_iff (s := getLogInstance ramDriver blankMemory) norDriver_ramDriver
    (fun _ _ _ ↦ rfl) rfl (by decide) fun _ ↦ hslotBlank).2 ⟨hleft, hprobe⟩

/-- Entries of one length use one slot each, as long as they fit in the first lap. -/
theorem heads_replicate (timer entry : List UInt8) {n : ℕ} (hn : n < headSlots)
    (hlen : (entryText timer entry).length ≤ 0x10000)
    (hfirst : n * (entryText timer entry).length ≤ logSpace) :
    ∃ lg m, logWrites ramDriver (getLogInstance ramDriver blankMemory)
        (List.replicate n (timer, entry)) = (lg, m) ∧
      LoggerInv (fun m ↦ m) (n * (entryText timer entry).length) (lg, m) ∧
      lg.headIndex = n + 1 ∧ HeadsUsed m n := by
  induction n with
  | zero =>
    obtain ⟨hinv, hindex, hused⟩ := loggerInv_ram
    rw [Nat.zero_mul]
    exact ⟨_, _, rfl, hinv, hindex, hused⟩
  | succ n ih =>
    rw [Nat.succ_mul] at hfirst
    obtain ⟨lg, m, hstate, hinv, hindex, hused⟩ := ih (Nat.lt_of_succ_lt hn)
      ((Nat.le_add_right _ _).trans hfirst)
    have hconfig : lg.config = configAt (n * (entryText timer entry).length) := hinv.config
    have hstay : ¬ ErasesSecond lg.config (entryText timer entry).length := by
      rw [hconfig, configAt_first ((Nat.le_add_right _ _).trans hfirst)]
      exact fun h ↦ absurd (h.2.trans_le h.1) (lt_irrefl logEndAddr)
    obtain ⟨hindex', hused'⟩ :=
      hinv.logWrite_next norDriver_ramDriver hlen hused hindex hn hstay
    have hstep := hinv.logWrite norDriver_ramDriver hlen
    rw [← Nat.succ_mul] at hstep
    refine ⟨_, _, ?_, hstep, hindex', hused'⟩
    rw [logWrites] at hstate
    rw [List.replicate_succ', logWrites, List.foldl_append, hstate]
    rfl

/-- After 455 short entries the head sector has just been erased, and the log is lost. -/
theorem not_losslessRestart_455 :
    (∀ e ∈ List.replicate 455 (newYearText, ([0x61] : List UInt8)),
      (entryText e.1 e.2).length ≤ 0x10000) ∧
      ¬ LosslessRestart ramDriver (fun m ↦ m) (logWrites ramDriver
        (getLogInstance ramDriver blankMemory) (List.replicate 455 (newYearText, [0x61]))) := by
  have hlen : (entryText newYearText [0x61]).length = 19 := rfl
  obtain ⟨lg, m, hstate, hinv, hindex, -⟩ := heads_replicate newYearText
    [0x61] (n := 454) (by decide) (by decide) (by rw [hlen]; decide)
  have hstay : ¬ ErasesSecond lg.config (entryText newYearText [0x61]).length := by
    have hconfig : lg.config = configAt (454 * (entryText newYearText [0x61]).length) := hinv.config
    rw [hconfig, hlen]
    decide
  have hslot : slotFor lg (entryText newYearText [0x61]).length = 455 :=
    (if_neg hstay).trans hindex
  have hfull : isValidHeadIndex 455 = false := by decide
  refine ⟨fun e he ↦ ?_, ?_⟩
  · rw [List.eq_of_mem_replicate he, hlen]
    decide
  · rw [List.replicate_succ', logWrites, List.foldl_append]
    rw [logWrites] at hstate
    rw [hstate]
    intro hall
    have hleft := ((losslessRestart_logWrite_iff norDriver_ramDriver hinv (by decide)
      fun hvalid ↦ absurd hvalid (by rw [hslot, hfull]; decide)).1 hall).1
    rw [hslot] at hleft
    exact absurd hleft (by decide)

end Mblue
