import Mblue.Library.NorFlash

/-!
# The data section of the log

`persistence_write`, `persistence_read` and `persistence_clear` of `mb_persistence.c`. The log lives
in the flash between `start_addr` and `end_addr` and is written round and round; what is written
next, what is valid and how far the flash has been erased is kept in `struct data_section_info`.

The three functions reach the flash through callbacks, which are a parameter here: they work on a
device state of any type, so that a device can fail, keep a record of the calls (`Callbacks.record`)
or own more than the flash, as the callbacks of the logger do. `_get_flash_sector_size` belongs to
the board's flash driver and is a parameter as well.

`size_t` has 32 bits on the target, and the sums and differences of addresses wrap around
(`add32`, `sub32`).
-/

namespace Mblue

open NorFlash

/-- A sum of two `size_t`. -/
def add32 (a b : ℕ) : ℕ := (a + b) % 2 ^ 32

/-- A difference of two `size_t`. -/
def sub32 (a b : ℕ) : ℕ := (a + (2 ^ 32 - b)) % 2 ^ 32

theorem add32_of_lt {a b : ℕ} (h : a + b < 2 ^ 32) : add32 a b = a + b := Nat.mod_eq_of_lt h

theorem sub32_of_le {a b : ℕ} (hb : b ≤ a) (ha : a < 2 ^ 32) : sub32 a b = a - b := by
  rw [sub32]
  omega

/-! ### Constants -/

/-- `FLASH_START_ADDR`, the sector with the heads. -/
def flashStartAddr : ℕ := 0x0800C000

/-- `LOG_START_ADDR`. -/
def logStartAddr : ℕ := 0x08010000

/-- `LOG_END_ADDR`, the address of the last byte of the second log sector. -/
def logEndAddr : ℕ := 0x0803FFFF

/-- `LOG_ERASE_ADDR`. -/
def logEraseAddr : ℕ := logEndAddr

/-- The address of the second log sector, to which `erase_addr` moves from the first. -/
def secondSectorAddr : ℕ := 0x08020000

/-- `MAGIC`. -/
def magicWord : ℕ := 12345678

/-- `HEAD_VALID_FLAG`. -/
def headValidFlag : ℕ := 0xFFFFFFFF

/-! ### Data -/

/-- `struct data_section_info`. -/
@[ext] structure DataSectionInfo where
  startAddr : ℕ
  endAddr : ℕ
  curWriteAddr : ℕ
  curReadAddr : ℕ
  dataStartAddr : ℕ
  dataEndAddr : ℕ
  eraseAddr : ℕ
  magic : ℕ
  valid : ℕ
  deriving DecidableEq, Repr

/-- The callbacks of `struct mb_persistence`: `write_cb(addr, len, buffer)`,
`read_cb(addr, len, buffer)` with the bytes it puts into the buffer, `erase_cb(addr, len)`. -/
structure Callbacks (F : Type) where
  writeCb : F → ℕ → List UInt8 → ℤ × F
  readCb : F → ℕ → ℕ → ℤ × List UInt8 × F
  eraseCb : F → ℕ → ℕ → ℤ × F

variable {F : Type}

/-- The same callbacks with a record of the accesses they are called for, the oldest first. -/
def Callbacks.record (cb : Callbacks F) : Callbacks (F × List (Access UInt8)) where
  writeCb := fun s addr data ↦
    let r := cb.writeCb s.1 addr data
    (r.1, r.2, s.2 ++ [.program addr data])
  readCb := fun s addr len ↦
    let r := cb.readCb s.1 addr len
    (r.1, r.2.1, r.2.2, s.2 ++ [.read addr len])
  eraseCb := fun s addr len ↦
    let r := cb.eraseCb s.1 addr len
    (r.1, r.2, s.2 ++ [.erase addr])

/-! ### Writing -/

/-- The lines of `persistence_write` that erase the next sector ahead of the write position. -/
def eraseAhead (cb : Callbacks F) (sectorSize : ℕ → ℕ) (c : DataSectionInfo) (f : F) :
    DataSectionInfo × F :=
  -- behind the last sector the frontier goes back to the first
  let eraseAddr := if c.endAddr = c.eraseAddr then c.startAddr else c.eraseAddr
  let size := sectorSize eraseAddr
  let f := (cb.eraseCb f eraseAddr size).2
  let eraseAddr' := add32 eraseAddr size
  ({ c with
      eraseAddr := eraseAddr'
      dataStartAddr := if eraseAddr' = c.endAddr then c.startAddr else eraseAddr' }, f)

/-- `persistence_write` of a buffer of `len` bytes. -/
def persistenceWrite (cb : Callbacks F) (sectorSize : ℕ → ℕ) (c : DataSectionInfo) (f : F)
    (buffer : List UInt8) : ℤ × DataSectionInfo × F :=
  let len := buffer.length
  if add32 c.curWriteAddr len ≤ c.endAddr then
    let s := if c.eraseAddr < add32 c.curWriteAddr len then eraseAhead cb sectorSize c f else (c, f)
    let r := cb.writeCb s.2 s.1.curWriteAddr buffer
    let cur := if r.1 ≠ 0 then add32 s.1.curWriteAddr len else s.1.curWriteAddr
    (r.1, { s.1 with curWriteAddr := cur, dataEndAddr := cur }, r.2)
  else
    -- fill the rest of the space first; the result of this write is overwritten below
    let writeSize := sub32 c.endAddr c.curWriteAddr
    let f := (cb.writeCb f c.curWriteAddr (buffer.take writeSize)).2
    let moreLen := sub32 len writeSize
    let size := sectorSize c.startAddr
    let f := (cb.eraseCb f c.startAddr size).2
    let eraseAddr := add32 c.startAddr size
    let r := cb.writeCb f c.startAddr (buffer.drop writeSize)
    let cur := if r.1 ≠ 0 then add32 c.startAddr moreLen else c.startAddr
    (len, { c with
      curWriteAddr := cur
      eraseAddr := eraseAddr
      dataStartAddr := eraseAddr
      dataEndAddr := cur }, r.2)

/-- A sequence of `persistence_write` calls. -/
def writeAll (cb : Callbacks F) (sectorSize : ℕ → ℕ) (s : DataSectionInfo × F)
    (buffers : List (List UInt8)) : DataSectionInfo × F :=
  buffers.foldl (fun s buffer ↦ (persistenceWrite cb sectorSize s.1 s.2 buffer).2) s

/-! ### Reading -/

/-- What one `persistence_read` leaves: its result, the bytes in the buffer, the section and the
device. -/
structure ReadResult (F : Type) where
  ret : Bool
  bytes : List UInt8
  config : DataSectionInfo
  device : F

/-- One call of `read_cb` at the read position, which moves to `next` when it succeeds. -/
def readChunk (cb : Callbacks F) (c : DataSectionInfo) (f : F) (size next : ℕ) : ReadResult F :=
  let r := cb.readCb f c.curReadAddr size
  { ret := r.1 ≠ 0
    bytes := r.2.1
    config := if r.1 ≠ 0 then { c with curReadAddr := next } else c
    device := r.2.2 }

/-- The two branches that read on towards `data_end_addr`. -/
def readToDataEnd (cb : Callbacks F) (c : DataSectionInfo) (f : F) (len : ℕ) : ReadResult F :=
  if add32 c.curReadAddr len ≤ c.dataEndAddr then
    readChunk cb c f len (add32 c.curReadAddr len)
  else
    readChunk cb c f (sub32 c.dataEndAddr c.curReadAddr) c.dataEndAddr

/-- The branch that reads on towards `end_addr` and goes back to `start_addr` from there. -/
def readToEnd (cb : Callbacks F) (c : DataSectionInfo) (f : F) (len : ℕ) : ReadResult F :=
  if add32 c.curReadAddr len ≤ c.endAddr then
    readChunk cb c f len (add32 c.curReadAddr len)
  else if c.endAddr = c.curReadAddr then
    { ret := true, bytes := [], config := { c with curReadAddr := c.startAddr }, device := f }
  else
    readChunk cb c f (sub32 c.endAddr c.curReadAddr) c.startAddr

/-- `persistence_read` of `len` bytes. -/
def persistenceRead (cb : Callbacks F) (c : DataSectionInfo) (f : F) (len : ℕ) : ReadResult F :=
  if c.curReadAddr = c.dataEndAddr then
    { ret := false, bytes := [], config := c, device := f }
  else if c.dataStartAddr < c.dataEndAddr then
    readToDataEnd cb c f len
  else if c.dataStartAddr ≤ c.curReadAddr then
    readToEnd cb c f len
  else
    readToDataEnd cb c f len

/-- The line of `_log_read` that starts a pass. -/
def rewindRead (c : DataSectionInfo) : DataSectionInfo := { c with curReadAddr := c.dataStartAddr }

/-- A pass of reads with the chunk lengths `chunks`, taken until `persistence_read` returns `0`:
what was read and the device. `none` stands for a pass that is not over after `fuel` reads. -/
def readPass (cb : Callbacks F) : ℕ → (ℕ → ℕ) → DataSectionInfo → F → Option (List UInt8 × F)
  | 0, _, _, _ => none
  | fuel + 1, chunks, c, f =>
    let r := persistenceRead cb c f (chunks 0)
    if r.ret then
      (readPass cb fuel (fun k ↦ chunks (k + 1)) r.config r.device).map fun p ↦
        (r.bytes ++ p.1, p.2)
    else
      some ([], r.device)

/-- The initialiser of `logger_handler.config`. -/
def initialConfig : DataSectionInfo where
  startAddr := logStartAddr
  endAddr := logEndAddr
  curWriteAddr := logStartAddr
  curReadAddr := logStartAddr
  dataStartAddr := logStartAddr
  dataEndAddr := logStartAddr
  eraseAddr := logEraseAddr
  magic := magicWord
  valid := headValidFlag

end Mblue
