import Mblue.Persistence.Restart

/-!
# Runs of the logger

`LoggerInv T` ties the three things together that a `_log_write` changes: the section, which is that
of `T` bytes written; the journal in the head sector; and the log, of which the device holds what
`keptAddrs T` lists, with the rest blank. Every `_log_write` of up to 64 KiB keeps it
(`LoggerInv.logWrite`), and it holds after the first start (`loggerInv_boot`).
-/

namespace Mblue

open NorFlash

variable {D : Type} {drv : FlashDriver D} {byteAt : D → ℕ → UInt8} {lg : MbLogger} {d d' : D}
  {T h h' : ℕ} {buffer : List UInt8}

/-! ### The logger's callbacks -/

/-- What an access through the logger's callbacks does to the flash and to `head_index`. -/
def LogAccess (drv : FlashDriver D) (byteAt : D → ℕ → UInt8) (s : D × ℕ) :
    Access UInt8 → D × ℕ → Prop
  | .program addr data, t => Programmed (byteAt s.1) (byteAt t.1) addr data ∧ t.2 = s.2
  | .erase addr, t => Erased drv.sectors.getFlashSector (byteAt s.1) (byteAt t.1) addr ∧
      t.2 = if drv.sectors.getFlashSector addr = drv.flashSector5 then 0 else s.2
  | .read _ _, t => t = s

theorem callsVia_logCallbacks (hnor : NorDriver drv byteAt) :
    CallsVia (logCallbacks drv) (LogAccess drv byteAt) where
  writeCb _ _ _ := ⟨hnor.write _ _ _, rfl⟩
  eraseCb _ _ _ := ⟨hnor.erase _ _ _, rfl⟩
  readCb _ _ _ := rfl

theorem logCallbacks_writeCb (hnor : NorDriver drv byteAt) (s : D × ℕ) (addr : ℕ)
    (data : List UInt8) : ((logCallbacks drv).writeCb s addr data).1 ≠ 0 := by
  show (if (drv.mbFlashWrite s.1 addr data).1 then (1 : ℤ) else 0) ≠ 0
  rw [if_pos (hnor.write_complete _ _ _)]
  exact one_ne_zero

theorem LogAccess.accessed {s t : D × ℕ} {x : Access UInt8} (hx : LogAccess drv byteAt s x t) :
    Accessed drv.sectors.getFlashSector (norCells (byteAt s.1)) x (norCells (byteAt t.1)) := by
  cases x with
  | program addr data => exact hx.1.accessed
  | erase addr => exact hx.1.accessed
  | read addr len =>
    obtain rfl : t = s := hx
    exact fun a ↦ sameAt_norCells rfl

/-- An access that does not touch an address. -/
def Spares (drv : FlashDriver D) (a : ℕ) : Access UInt8 → Prop
  | .program addr data => a ∉ List.range' addr data.length
  | .erase addr => drv.sectors.getFlashSector a ≠ drv.sectors.getFlashSector addr
  | .read _ _ => True

theorem LogAccess.byteAt_eq {s t : D × ℕ} {x : Access UInt8} {a : ℕ}
    (hx : LogAccess drv byteAt s x t) (ha : Spares drv a x) : byteAt t.1 a = byteAt s.1 a := by
  cases x with
  | program addr data => exact hx.1.outside a ha
  | erase addr => exact hx.1.outside a ha
  | read addr len =>
    obtain rfl : t = s := hx
    rfl

/-- An access behind the head sector. -/
def BehindHead (drv : FlashDriver D) : Access UInt8 → Prop
  | .program addr _ => logStartAddr ≤ addr
  | .erase addr => drv.sectors.getFlashSector addr ≠ drv.sectors.getFlashSector flashStartAddr
  | .read _ _ => True

theorem BehindHead.spares (hnor : NorDriver drv byteAt) {x : Access UInt8} {a : ℕ}
    (hb : BehindHead drv x) (hlo : flashStartAddr ≤ a) (hhi : a < flashStartAddr + 0x4000) :
    Spares drv a x := by
  cases x with
  | program addr data =>
    intro hmem
    have hge : logStartAddr ≤ addr := hb
    have hstart : logStartAddr = flashStartAddr + 0x4000 := rfl
    rw [List.mem_range'_1] at hmem
    omega
  | erase addr => exact fun heq ↦ hb (heq.symm.trans ((hnor.head_iff a).2 ⟨hlo, hhi⟩))
  | read addr len => trivial

/-! ### One write of the section -/

/-- The write erases the second sector, so the heads start again from slot 0. -/
def ErasesSecond (c : DataSectionInfo) (len : ℕ) : Prop :=
  c.curWriteAddr + len ≤ c.endAddr ∧ c.eraseAddr < c.curWriteAddr + len

instance instDecidableErasesSecond (c : DataSectionInfo) (len : ℕ) :
    Decidable (ErasesSecond c len) :=
  inferInstanceAs (Decidable (c.curWriteAddr + len ≤ c.endAddr ∧
    c.eraseAddr < c.curWriteAddr + len))

/-- The slot to which the flush behind a write of `len` bytes goes. -/
def slotFor (lg : MbLogger) (len : ℕ) : ℕ := if ErasesSecond lg.config len then 0 else lg.headIndex

theorem sector_ne_head (hnor : NorDriver drv byteAt) {a : ℕ} (ha : logStartAddr ≤ a) :
    drv.sectors.getFlashSector a ≠ drv.sectors.getFlashSector flashStartAddr := fun heq ↦ by
  have hstart : logStartAddr = flashStartAddr + 0x4000 := rfl
  have := ((hnor.head_iff a).1 heq).2
  omega

/-- **What one write of up to 64 KiB does beside the section**: nothing to the heads, and
`head_index` goes to 0 exactly when the second sector is erased. -/
theorem writeAccesses_heads (hnor : NorDriver drv byteAt) (hlen : buffer.length ≤ 0x10000)
    (hf : Follows (LogAccess drv byteAt) (d, h) (writeAccesses (configAt T) buffer) (d', h')) :
    SameHead (byteAt d) (byteAt d') ∧
      h' = if ErasesSecond (configAt T) buffer.length then 0 else h := by
  obtain ⟨hstart, hsecond, hend⟩ := addresses
  have hlog : logSpace = 0x2FFFF := rfl
  -- what lies behind the heads keeps the bytes of the heads
  have hsame : (∀ x ∈ writeAccesses (configAt T) buffer, BehindHead drv x) →
      SameHead (byteAt d) (byteAt d') := fun hall a hlo hhi ↦
    hf.frame (v := fun s ↦ byteAt s.1 a) (fun _ _ _ hb hx ↦ hx.byteAt_eq (hb.spares hnor hlo hhi))
      hall
  cases writeCase_of_writeFits (writeFits_of_le hlen) with
  | plain hspace hahead =>
    rw [configAt, writeAccesses_plain hspace hahead] at hf hsame
    refine ⟨hsame fun x hx ↦ ?_, ?_⟩
    · rw [List.mem_singleton.1 hx]
      exact Nat.le_add_right _ _
    · have hno : ¬ ErasesSecond (configAt T) buffer.length := fun he ↦
        absurd he.2 (Nat.not_lt.2 hahead)
      rw [if_neg hno]
      obtain - | ⟨hx, - | _⟩ := hf
      exact hx.2
  | erasing hT hlow hcross hspace =>
    have hyes : ErasesSecond (configAt T) buffer.length := by
      rw [configAt_low hT hlow]
      exact ⟨le_end_iff.2 hspace,
        show secondSectorAddr < logStartAddr + position T + buffer.length by omega⟩
    rw [configAt_low hT hlow, writeAccesses_erasing hspace hcross] at hf hsame
    refine ⟨hsame fun x hx ↦ ?_, ?_⟩
    · simp only [List.mem_cons, List.not_mem_nil, or_false] at hx
      rcases hx with rfl | rfl
      · exact sector_ne_head hnor (show logStartAddr ≤ secondSectorAddr by omega)
      · exact Nat.le_add_right _ _
    · rw [if_pos hyes]
      obtain - | ⟨⟨-, hx₁⟩, - | ⟨⟨-, hx₂⟩, - | _⟩⟩ := hf
      exact hx₂.trans (hx₁.trans (if_pos hnor.sector5.symm))
  | wrapping hT hwrap hspill =>
    have hno : ¬ ErasesSecond (configAt T) buffer.length := fun he ↦ by
      have : logStartAddr + position T + buffer.length ≤ logEndAddr := he.1
      omega
    -- the sector erased here is the first one
    have hfirst : drv.sectors.getFlashSector logStartAddr ≠ drv.flashSector5 := fun heq ↦ by
      have := ((drv.sectors.second_iff logStartAddr).1 (heq.trans hnor.sector5)).1
      omega
    rw [configAt, writeAccesses_wrapping (position_le T) hwrap (by omega)] at hf hsame
    refine ⟨hsame fun x hx ↦ ?_, ?_⟩
    · simp only [List.mem_cons, List.not_mem_nil, or_false] at hx
      rcases hx with rfl | rfl | rfl
      · exact Nat.le_add_right _ _
      · exact sector_ne_head hnor le_rfl
      · exact le_refl logStartAddr
    · rw [if_neg hno]
      obtain - | ⟨⟨-, hx₁⟩, - | ⟨⟨-, hx₂⟩, - | ⟨⟨-, hx₃⟩, - | _⟩⟩⟩ := hf
      exact hx₃.trans (hx₂.trans ((if_neg hfirst).trans hx₁))

/-! ### The invariant -/

/-- The device stores the log after `T` bytes. -/
def StoresLog (T : ℕ) (m : ℕ → UInt8) : Prop :=
  ∃ kept, Holds logArea (norCells m) kept ∧ kept.map Prod.fst = keptAddrs T

/-- **The state of the logger after `T` bytes.** -/
structure LoggerInv (byteAt : D → ℕ → UInt8) (T : ℕ) (s : MbLogger × D) : Prop where
  config : s.1.config = configAt T
  heads : HeadInv (byteAt s.2) s.1.headIndex
  log : StoresLog T (byteAt s.2)

/-- The log lies in its area. -/
theorem logStart_le_of_mem_keptAddrs {a : ℕ} (ha : a ∈ keptAddrs T) : logStartAddr ≤ a := by
  obtain ⟨hstart, hsecond, -⟩ := addresses
  rw [keptAddrs] at ha
  split at ha
  · exact (List.mem_range'_1.1 ha).1
  · split at ha
    · rcases List.mem_append.1 ha with ha | ha
      · have := (List.mem_range'_1.1 ha).1
        omega
      · exact (List.mem_range'_1.1 ha).1
    · exact (List.mem_range'_1.1 ha).1

theorem StoresLog.congr {m m' : ℕ → UInt8} (hl : StoresLog T m)
    (heq : ∀ a, logStartAddr ≤ a → m' a = m a) : StoresLog T m' := by
  obtain ⟨kept, hholds, hkept⟩ := hl
  refine ⟨kept, ⟨fun c hc ↦ ?_, fun a ha hna ↦ ?_⟩, hkept⟩
  · have hmem : c.1 ∈ keptAddrs T := hkept ▸ List.mem_map_of_mem hc
    exact (heq _ (logStart_le_of_mem_keptAddrs hmem)).trans (hholds.stored c hc)
  · exact (heq a ha.1).trans (hholds.blank a ha hna)

/-- The logger and the flash between the write of the section and the flush. -/
def beforeFlush (drv : FlashDriver D) (lg : MbLogger) (d : D) (text : List UInt8) : MbLogger × D :=
  let r := persistenceWrite (logCallbacks drv) drv.sectors.getFlashSectorSize lg.config
    (d, lg.headIndex) text
  (⟨r.2.1, r.2.2.2⟩, r.2.2.1)

theorem logWrite_snd (drv : FlashDriver D) (lg : MbLogger) (d : D) (timer entry : List UInt8) :
    (logWrite drv lg d timer entry).2 =
      flushHeadIndex drv (beforeFlush drv lg d (entryText timer entry)).1
        (beforeFlush drv lg d (entryText timer entry)).2 := rfl

/-- What holds between the write of the section and the flush. -/
structure MidWrite (drv : FlashDriver D) (byteAt : D → ℕ → UInt8) (T : ℕ) (lg : MbLogger) (d : D)
    (text : List UInt8) : Prop where
  config : (beforeFlush drv lg d text).1.config = configAt (T + text.length)
  headIndex : (beforeFlush drv lg d text).1.headIndex = slotFor lg text.length
  same : SameHead (byteAt d) (byteAt (beforeFlush drv lg d text).2)
  follows : Follows (LogAccess drv byteAt) (d, lg.headIndex) (writeAccesses (configAt T) text)
    ((beforeFlush drv lg d text).2, (beforeFlush drv lg d text).1.headIndex)
  log : StoresLog (T + text.length) (byteAt (beforeFlush drv lg d text).2)

theorem LoggerInv.midWrite (hnor : NorDriver drv byteAt) (hs : LoggerInv byteAt T (lg, d))
    (hlen : buffer.length ≤ 0x10000) : MidWrite drv byteAt T lg d buffer := by
  obtain ⟨config, headIndex⟩ := lg
  obtain rfl : config = configAt T := hs.config
  have hfollows := persistenceWrite_follows (callsVia_logCallbacks hnor)
    drv.sectors.getFlashSectorSize (configAt T) (d, headIndex) buffer
  obtain ⟨hsame, hindex⟩ := writeAccesses_heads hnor hlen hfollows
  obtain ⟨kept, hholds, hkept⟩ := hs.log
  obtain ⟨hsound, hkept'⟩ := writeAccesses_sound drv.sectors hkept (writeFits_of_le hlen)
  have hafter := hholds.follows (fun s ↦ norCells (byteAt s.1)) hsound
    (hfollows.imp fun _ _ _ hx ↦ hx.accessed)
  exact ⟨persistenceWrite_config drv.sectors (logCallbacks_writeCb hnor) (writeFits_of_le hlen), hindex,
    hsame, hfollows, _, hafter, hkept'⟩

theorem HeadInv.slotFor {m : ℕ → UInt8} (hi : HeadInv m lg.headIndex) (len : ℕ) :
    HeadInv m (slotFor lg len) := by
  rw [Mblue.slotFor]
  split
  · exact hi.reset
  · exact hi

theorem configAt_magic (T : ℕ) : (configAt T).magic = magicWord := rfl

theorem configAt_valid (T : ℕ) : (configAt T).valid = headValidFlag := rfl

/-- **Every `_log_write` of up to 64 KiB keeps the invariant.** -/
theorem LoggerInv.logWrite (hnor : NorDriver drv byteAt) (hs : LoggerInv byteAt T (lg, d))
    {timer entry : List UInt8} (hlen : (entryText timer entry).length ≤ 0x10000) :
    LoggerInv byteAt (T + (entryText timer entry).length)
      (logWrite drv lg d timer entry).2 := by
  have hmid := hs.midWrite hnor hlen
  have hheads := (hs.heads.slotFor (entryText timer entry).length).congr hmid.same
  rw [← hmid.headIndex] at hheads
  have hmagic := (congrArg DataSectionInfo.magic hmid.config).trans (configAt_magic _)
  have hvalid := (congrArg DataSectionInfo.valid hmid.config).trans (configAt_valid _)
  rw [logWrite_snd]
  refine ⟨?_, hheads.flush hnor hmagic hvalid,
    hmid.log.congr fun a ha ↦ flush_outside hnor _ hheads.le ha⟩
  rw [← hmid.config, flushHeadIndex_eq]
  split <;> rfl

/-! ### The first start -/

/-- The three sectors of the logger have been erased. -/
def FlashBlank (m : ℕ → UInt8) : Prop :=
  ∀ a, flashStartAddr ≤ a → a < secondSectorAddr + 0x20000 → m a = 0xFF

theorem Erased.byteAt_blank {σ : Type*} {sector : ℕ → σ} {m m' : ℕ → UInt8} {addr a : ℕ}
    (he : Erased sector m m' addr) (ha : m a = 0xFF) : m' a = 0xFF := by
  by_cases hs : sector a = sector addr
  · exact he.inside a hs
  · rw [he.outside a hs, ha]

theorem logClear_blank (hnor : NorDriver drv byteAt) {a : ℕ} (ha : byteAt d a = 0xFF) :
    byteAt (logClear drv d) a = 0xFF :=
  Erased.byteAt_blank (hnor.erase _ _ _)
    (Erased.byteAt_blank (hnor.erase _ _ _) (Erased.byteAt_blank (hnor.erase _ _ _) ha))

/-- **After the first start** the section is that of an empty log, and its head is in slot 0. -/
theorem loggerInv_boot (hnor : NorDriver drv byteAt) (hblank : FlashBlank (byteAt d)) :
    LoggerInv byteAt 0 (getLogInstance drv d) ∧ (getLogInstance drv d).1.headIndex = 1 ∧
      HeadsUsed (byteAt (getLogInstance drv d).2) 0 := by
  have hclosed : ∀ {m : ℕ → UInt8}, FlashBlank m → HeadsClosed m 0 := fun hm ↦
    headsClosed_of_blank fun a hlo hhi ↦ hm a hlo (hhi.trans (by decide))
  have hclear : FlashBlank (byteAt (logClear drv d)) := fun a hlo hhi ↦
    logClear_blank hnor (hblank a hlo hhi)
  have hheads : HeadInv (byteAt (logClear drv d)) 0 := .inl ⟨rfl, hclosed hclear⟩
  rw [getLogInstance_blank hnor ((hclosed hblank).blank 0 le_rfl (by decide)), clearAndFlush]
  obtain ⟨hlg, hused, -⟩ := hheads.flush_blank hnor ⟨initialConfig, 0⟩ rfl rfl (by decide)
    ((hclosed hclear).blank 0 le_rfl (by decide))
  have hlog : StoresLog 0 (byteAt (logClear drv d)) :=
    ⟨[], .of_blank fun a ha ↦ hclear a (le_trans (by decide) ha.1) (ha.2.trans (by decide)), rfl⟩
  refine ⟨⟨by rw [hlg]; rfl, .inr ⟨0, hused, by rw [hlg]⟩, ?_⟩, by rw [hlg], hused⟩
  exact hlog.congr fun a ha ↦ flush_outside hnor ⟨initialConfig, 0⟩ (Nat.zero_le _) ha

/-- **The invariant holds along every run** of writes of up to 64 KiB. -/
theorem loggerInv_logWrites (hnor : NorDriver drv byteAt) {s : MbLogger × D}
    (hs : LoggerInv byteAt T s) {entries : List (List UInt8 × List UInt8)}
    (hlen : ∀ e ∈ entries, (entryText e.1 e.2).length ≤ 0x10000) :
    LoggerInv byteAt (T + (entries.map fun e ↦ (entryText e.1 e.2).length).sum)
      (logWrites drv s entries) := by
  induction entries generalizing s T with
  | nil => exact hs
  | cons e entries ih =>
    have hstep := hs.logWrite hnor (hlen e List.mem_cons_self)
    rw [List.map_cons, List.sum_cons, ← Nat.add_assoc]
    exact ih hstep fun x hx ↦ hlen x (List.mem_cons_of_mem _ hx)

/-- A `_log_write` whose flush goes to the slot behind the valid one, as long as there is one. -/
theorem LoggerInv.logWrite_next (hnor : NorDriver drv byteAt) (hs : LoggerInv byteAt T (lg, d))
    {timer entry : List UInt8} (hlen : (entryText timer entry).length ≤ 0x10000) {i : ℕ}
    (hused : HeadsUsed (byteAt d) i) (hindex : lg.headIndex = i + 1) (hi : i + 1 < headSlots)
    (hstay : ¬ ErasesSecond lg.config (entryText timer entry).length) :
    (Mblue.logWrite drv lg d timer entry).2.1.headIndex = i + 2 ∧
      HeadsUsed (byteAt (Mblue.logWrite drv lg d timer entry).2.2) (i + 1) := by
  have hmid := hs.midWrite hnor hlen
  have hslot : slotFor lg (entryText timer entry).length = i + 1 := (if_neg hstay).trans hindex
  have hheads := (hs.heads.slotFor (entryText timer entry).length).congr hmid.same
  have hmagic := (congrArg DataSectionInfo.magic hmid.config).trans (configAt_magic _)
  have hvalid := (congrArg DataSectionInfo.valid hmid.config).trans (configAt_valid _)
  have hblank := hmid.same.slotBlank hi (hused.blank (i + 1) (Nat.lt_succ_self i) hi)
  rw [← hmid.headIndex] at hheads hslot
  rw [← hslot] at hi hblank ⊢
  obtain ⟨hlg, hused', -⟩ := hheads.flush_blank hnor _ hmagic hvalid hi hblank
  rw [logWrite_snd]
  refine ⟨?_, hused'⟩
  rw [hlg]
  exact congrArg (· + 1) hslot

end Mblue
