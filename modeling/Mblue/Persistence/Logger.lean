import Mblue.Persistence.Frontier

/-!
# The logger and its head sector

The rest of `mb_persistence.c`: `struct mb_logger` with `_log_write`, and the boot code behind
`get_log_instance`. The section is journalled in the head sector, in slots of the size of
`struct data_section_info` that are written once each; a slot that is replaced gets its last word
`valid` cleared. At boot the first slot that is still valid is taken over.

The functions of the board's flash driver are parameters (`FlashDriver`), and so are the addresses
that `_log_clear` passes to it. The text of the time stamp comes from the clock component and is an
input of `logWrite`.
-/

namespace Mblue

open NorFlash

/-! ### Heads in memory -/

/-- The bytes of a `size_t` in memory. -/
def wordBytes (w : ℕ) : List UInt8 :=
  [UInt8.ofNat w, UInt8.ofNat (w / 256), UInt8.ofNat (w / 65536), UInt8.ofNat (w / 16777216)]

/-- The `size_t` at offset `i` of a buffer that was cleared before it was filled. -/
def wordAt (bytes : List UInt8) (i : ℕ) : ℕ :=
  (bytes.getD i 0).toNat + 256 * (bytes.getD (i + 1) 0).toNat +
    65536 * (bytes.getD (i + 2) 0).toNat + 16777216 * (bytes.getD (i + 3) 0).toNat

/-- `_get_head_size`. -/
def headSize : ℕ := 36

/-- The bytes of a `struct data_section_info`. -/
def DataSectionInfo.toBytes (c : DataSectionInfo) : List UInt8 :=
  wordBytes c.startAddr ++ wordBytes c.endAddr ++ wordBytes c.curWriteAddr ++
    wordBytes c.curReadAddr ++ wordBytes c.dataStartAddr ++ wordBytes c.dataEndAddr ++
    wordBytes c.eraseAddr ++ wordBytes c.magic ++ wordBytes c.valid

/-- The `struct data_section_info` in a buffer. -/
def DataSectionInfo.ofBytes (bytes : List UInt8) : DataSectionInfo where
  startAddr := wordAt bytes 0
  endAddr := wordAt bytes 4
  curWriteAddr := wordAt bytes 8
  curReadAddr := wordAt bytes 12
  dataStartAddr := wordAt bytes 16
  dataEndAddr := wordAt bytes 20
  eraseAddr := wordAt bytes 24
  magic := wordAt bytes 28
  valid := wordAt bytes 32

/-! ### The flash driver -/

/-- What `mb_persistence.c` uses of the flash driver and its header. A `Bool` says whether the
result is `FLASH_COMPLETE`. -/
structure FlashDriver (D : Type) where
  mbFlashRead : D → ℕ → ℕ → ℤ × List UInt8
  mbFlashWrite : D → ℕ → List UInt8 → Bool × D
  mbFlashWriteWord : D → ℕ → ℕ → D
  mbFlashErase : D → ℕ → ℕ → Bool × D
  sectors : FlashSectors
  /-- `FLASH_Sector_5`. -/
  flashSector5 : ℕ
  /-- `FLASH_ADDR_HEAD`. -/
  flashAddrHead : ℕ
  /-- `FLASH_ADDR_SECTOR1`. -/
  flashAddrSector1 : ℕ
  /-- `FLASH_ADDR_SECTOR2`. -/
  flashAddrSector2 : ℕ

variable {D : Type}

/-- The same driver with a record of what it programs and erases, the oldest first. -/
def FlashDriver.record (drv : FlashDriver D) : FlashDriver (D × List (Access UInt8)) :=
  { drv with
    mbFlashRead := fun s ↦ drv.mbFlashRead s.1
    mbFlashWrite := fun s addr data ↦
      let r := drv.mbFlashWrite s.1 addr data
      (r.1, r.2, s.2 ++ [.program addr data])
    mbFlashWriteWord := fun s addr w ↦
      (drv.mbFlashWriteWord s.1 addr w, s.2 ++ [.program addr (wordBytes w)])
    mbFlashErase := fun s addr len ↦
      let r := drv.mbFlashErase s.1 addr len
      (r.1, r.2, s.2 ++ [.erase addr]) }

/-! ### The logger -/

/-- `struct mb_logger`, with the section it owns. -/
@[ext] structure MbLogger where
  config : DataSectionInfo
  headIndex : ℕ
  deriving DecidableEq, Repr

/-- `_write_function`, `_read_function` and `_erase_function`. The device of these callbacks is the
flash together with the `head_index` of the logger, which the last one sets. -/
def logCallbacks (drv : FlashDriver D) : Callbacks (D × ℕ) where
  writeCb s addr data :=
    let r := drv.mbFlashWrite s.1 addr data
    (if r.1 then 1 else 0, r.2, s.2)
  readCb s addr len :=
    let r := drv.mbFlashRead s.1 addr len
    (r.1, r.2, s)
  eraseCb s addr len :=
    -- the first sector of 128 KiB: the heads start again from slot 0
    let headIndex := if drv.sectors.getFlashSector addr = drv.flashSector5 then 0 else s.2
    let r := drv.mbFlashErase s.1 addr len
    (if r.1 then 1 else 0, r.2, headIndex)

/-- `LOG_HEAD_SPACE_SIZE`. -/
def logHeadSpaceSize : ℕ := 0x4000

/-- The address of a head slot. -/
def slotAddr (index : ℕ) : ℕ := flashStartAddr + index * headSize

/-- `__is_valid_head_index`. -/
def isValidHeadIndex (headIndex : ℕ) : Bool := (headIndex + 1) * headSize ≤ logHeadSpaceSize

/-- `_set_head_index_invalid`. -/
def setHeadIndexInvalid (drv : FlashDriver D) (d : D) (index : ℕ) : D :=
  drv.mbFlashWriteWord d (slotAddr index + headSize - 4) 0

/-- `_flush_head_index`. -/
def flushHeadIndex (drv : FlashDriver D) (lg : MbLogger) (d : D) : MbLogger × D :=
  let d := if 0 < lg.headIndex then setHeadIndexInvalid drv d (lg.headIndex - 1) else d
  if isValidHeadIndex lg.headIndex then
    ({ lg with headIndex := lg.headIndex + 1 },
      (drv.mbFlashWrite d (slotAddr lg.headIndex) lg.config.toBytes).2)
  else
    ({ lg with headIndex := 0 }, (drv.mbFlashErase d flashStartAddr logHeadSpaceSize).2)

/-- What `%s` takes of a buffer. -/
def cString (buffer : List UInt8) : List UInt8 := buffer.takeWhile (· ≠ 0)

/-- The text `"%s %s \r\n"` of a time stamp and a buffer. -/
def entryText (timer buffer : List UInt8) : List UInt8 :=
  cString timer ++ [0x20] ++ cString buffer ++ [0x20, 0x0D, 0x0A]

/-- `_log_write`, with memory for the text. -/
def logWrite (drv : FlashDriver D) (lg : MbLogger) (d : D) (timer buffer : List UInt8) :
    ℤ × MbLogger × D :=
  let r := persistenceWrite (logCallbacks drv) drv.sectors.getFlashSectorSize lg.config
    (d, lg.headIndex) (entryText timer buffer)
  (r.1, flushHeadIndex drv ⟨r.2.1, r.2.2.2⟩ r.2.2.1)

/-- `_log_clear`. -/
def logClear (drv : FlashDriver D) (d : D) : D :=
  let d := (drv.mbFlashErase d drv.flashAddrHead 0).2
  let d := (drv.mbFlashErase d drv.flashAddrSector1 0).2
  (drv.mbFlashErase d drv.flashAddrSector2 0).2

/-! ### The boot code -/

/-- The head in a slot, as the boot code reads it. -/
def readHead (drv : FlashDriver D) (d : D) (index : ℕ) : DataSectionInfo :=
  .ofBytes (drv.mbFlashRead d (slotAddr index) headSize).2

/-- `__find_valid_head_index`: whether a valid head was found, and the logger. -/
def findValidHeadIndex (drv : FlashDriver D) (lg : MbLogger) (d : D) : Bool × MbLogger :=
  if isValidHeadIndex lg.headIndex then
    let head := readHead drv d lg.headIndex
    if head.magic = magicWord ∧ head.valid = headValidFlag then
      (true, { config := head, headIndex := lg.headIndex + 1 })
    else
      findValidHeadIndex drv { lg with headIndex := lg.headIndex + 1 } d
  else
    (false, lg)
termination_by logHeadSpaceSize - lg.headIndex
decreasing_by
  next hslot _ =>
    have hle : (lg.headIndex + 1) * 36 ≤ 0x4000 := of_decide_eq_true hslot
    rw [logHeadSpaceSize]
    omega

/-- `__is_valid_flash_space`. -/
def isValidFlashSpace (data : List UInt8) : Bool := data.all (· = 0xFF)

/-- `_log_clear` and `_flush_head_index`, as the boot code calls them one after the other. -/
def clearAndFlush (drv : FlashDriver D) (lg : MbLogger) (d : D) : MbLogger × D :=
  flushHeadIndex drv lg (logClear drv d)

/-- `__confirm_head_and_data_section_valid`. -/
def confirmHeadAndDataSectionValid (drv : FlashDriver D) (lg : MbLogger) (d : D) : MbLogger × D :=
  let startAddr := lg.config.curWriteAddr
  if lg.config.startAddr ≤ startAddr ∧ startAddr < lg.config.endAddr then
    if add32 startAddr 8 ≤ lg.config.endAddr then
      if isValidFlashSpace (drv.mbFlashRead d startAddr 8).2 then (lg, d)
      else clearAndFlush drv lg d
    else (lg, d)
  else (lg, d)

/-- `_init_check`. -/
def initCheck (drv : FlashDriver D) (lg : MbLogger) (d : D) : MbLogger × D :=
  if (readHead drv d 0).magic ≠ magicWord then clearAndFlush drv lg d
  else
    let r := findValidHeadIndex drv lg d
    if r.1 then confirmHeadAndDataSectionValid drv r.2 d else clearAndFlush drv r.2 d

/-- The first `get_log_instance` after a start: the logger has its initialisers. -/
def getLogInstance (drv : FlashDriver D) (d : D) : MbLogger × D :=
  initCheck drv { config := initialConfig, headIndex := 0 } d

/-- A sequence of `_log_write` calls, each with the time stamp and the buffer it is given. -/
def logWrites (drv : FlashDriver D) (s : MbLogger × D) (entries : List (List UInt8 × List UInt8)) :
    MbLogger × D :=
  entries.foldl (fun s e ↦ (logWrite drv s.1 s.2 e.1 e.2).2) s

end Mblue
