import Mblue.Persistence.Section

/-!
# Where the log is written and erased

What `persistence_write` does to the flash and to the section, from the initial configuration on.
`writeAccesses` lists the accesses of one call. The section itself only depends on the number `T` of
bytes written so far (`configAt`), as long as no write does what `WriteFits` excludes, and so do the
addresses that hold data (`keptAddrs`):

* on the first lap everything from `LOG_START_ADDR` to the write position;
* while a later lap is in the first sector, the old data of the second sector, then the new data;
* once it has passed into the second sector, which is erased on the way, the data of this lap.

A write of up to 128 KiB that does not meet `WriteFits` programs a cell that holds data; up to 64 KiB
every write meets it (`writeFits_of_le`).
-/

namespace Mblue

open NorFlash

/-! ### The sectors -/

/-- What the flash driver says about the sectors of the log: 64 KiB from `LOG_START_ADDR` on, then
128 KiB. -/
structure FlashSectors where
  /-- `_get_falsh_sector`. -/
  getFlashSector : ℕ → ℕ
  /-- `_get_flash_sector_size`. -/
  getFlashSectorSize : ℕ → ℕ
  size_first : getFlashSectorSize logStartAddr = 0x10000
  size_second : getFlashSectorSize secondSectorAddr = 0x20000
  first_iff : ∀ a, getFlashSector a = getFlashSector logStartAddr ↔
    logStartAddr ≤ a ∧ a < logStartAddr + 0x10000
  second_iff : ∀ a, getFlashSector a = getFlashSector secondSectorAddr ↔
    secondSectorAddr ≤ a ∧ a < secondSectorAddr + 0x20000

/-- The sector map of a part with four sectors of 16 KiB, one of 64 KiB and then sectors of
128 KiB. -/
def boardSectors : FlashSectors where
  getFlashSector a :=
    if a < 0x08010000 then (a - 0x08000000) / 0x4000
    else if a < 0x08020000 then 4 else 5 + (a - 0x08020000) / 0x20000
  getFlashSectorSize a :=
    if a < 0x08010000 then 0x4000 else if a < 0x08020000 then 0x10000 else 0x20000
  size_first := rfl
  size_second := rfl
  first_iff a := by
    show (if a < 0x08010000 then _ else _) = 4 ↔ 0x08010000 ≤ a ∧ a < 0x08010000 + 0x10000
    split
    · omega
    · split <;> omega
  second_iff a := by
    show (if a < 0x08010000 then _ else _) = 5 ↔ 0x08020000 ≤ a ∧ a < 0x08020000 + 0x20000
    split
    · omega
    · split <;> omega

/-- The values of the addresses, for linear arithmetic. -/
theorem addresses : logStartAddr = 0x08010000 ∧ secondSectorAddr = 0x08020000 ∧
    logEndAddr = 0x0803FFFF := ⟨rfl, rfl, rfl⟩

/-- The bytes of one lap. -/
def logSpace : ℕ := 0x2FFFF

/-! ### The accesses of one write -/

/-- Callbacks whose effect on the device is described by `R`. -/
structure CallsVia {F : Type} (cb : Callbacks F) (R : F → Access UInt8 → F → Prop) : Prop where
  writeCb : ∀ f addr data, R f (.program addr data) (cb.writeCb f addr data).2
  eraseCb : ∀ f addr len, R f (.erase addr) (cb.eraseCb f addr len).2
  readCb : ∀ f addr len, R f (.read addr len) (cb.readCb f addr len).2.2

/-- The accesses that `persistence_write` makes. -/
def writeAccesses (c : DataSectionInfo) (buffer : List UInt8) : List (Access UInt8) :=
  if add32 c.curWriteAddr buffer.length ≤ c.endAddr then
    (if c.eraseAddr < add32 c.curWriteAddr buffer.length then
      [.erase (if c.endAddr = c.eraseAddr then c.startAddr else c.eraseAddr)] else []) ++
        [.program c.curWriteAddr buffer]
  else
    [.program c.curWriteAddr (buffer.take (sub32 c.endAddr c.curWriteAddr)), .erase c.startAddr,
      .program c.startAddr (buffer.drop (sub32 c.endAddr c.curWriteAddr))]

variable {F : Type} {cb : Callbacks F} {R : F → Access UInt8 → F → Prop} {sectorSize : ℕ → ℕ}

theorem persistenceWrite_follows (hR : CallsVia cb R) (sectorSize : ℕ → ℕ) (c : DataSectionInfo)
    (f : F) (buffer : List UInt8) :
    Follows R f (writeAccesses c buffer) (persistenceWrite cb sectorSize c f buffer).2.2 := by
  unfold persistenceWrite writeAccesses
  dsimp only
  by_cases hle : add32 c.curWriteAddr buffer.length ≤ c.endAddr
  · rw [if_pos hle, if_pos hle]
    by_cases herase : c.eraseAddr < add32 c.curWriteAddr buffer.length
    · rw [if_pos herase, if_pos herase]
      exact (Follows.single (hR.eraseCb _ _ _)).append (.single (hR.writeCb _ _ _))
    · rw [if_neg herase, if_neg herase]
      exact .single (hR.writeCb _ _ _)
  · rw [if_neg hle, if_neg hle]
    exact .cons (hR.writeCb _ _ _) (.cons (hR.eraseCb _ _ _) (.single (hR.writeCb _ _ _)))

/-- What the recorded callbacks do: the record grows by the access. -/
def Recorded (R : F → Access UInt8 → F → Prop) (s : F × List (Access UInt8)) (x : Access UInt8)
    (t : F × List (Access UInt8)) : Prop :=
  t.2 = s.2 ++ [x] ∧ R s.1 x t.1

theorem CallsVia.record (hR : CallsVia cb R) : CallsVia cb.record (Recorded R) where
  writeCb _ _ _ := ⟨rfl, hR.writeCb _ _ _⟩
  eraseCb _ _ _ := ⟨rfl, hR.eraseCb _ _ _⟩
  readCb _ _ _ := ⟨rfl, hR.readCb _ _ _⟩

theorem follows_recorded {s t : F × List (Access UInt8)} {h : List (Access UInt8)}
    (hf : Follows (Recorded R) s h t) : t.2 = s.2 ++ h ∧ Follows R s.1 h t.1 := by
  induction hf with
  | nil s => exact ⟨(List.append_nil _).symm, .nil _⟩
  | cons hx _ ih =>
    refine ⟨?_, .cons hx.2 ih.2⟩
    rw [ih.1, hx.1, List.append_assoc, List.singleton_append]

/-! ### The section after `T` bytes -/

/-- The offset of the write position after `T` bytes: a lap ends on the last byte, not behind it. -/
def position (T : ℕ) : ℕ := if T = 0 then 0 else (T - 1) % 0x2FFFF + 1

theorem position_le (T : ℕ) : position T ≤ logSpace := by
  unfold position logSpace
  split <;> omega

theorem position_of_le {T : ℕ} (h : T ≤ logSpace) : position T = T := by
  unfold position
  unfold logSpace at h
  split <;> omega

theorem position_add {T len : ℕ} (h : position T + len ≤ logSpace) :
    position (T + len) = position T + len := by
  unfold position logSpace at *
  split at h <;> split <;> omega

theorem position_add_of_lt {T len : ℕ} (h : logSpace < position T + len)
    (hle : position T + len ≤ logSpace + 0x10000) :
    position (T + len) = position T + len - logSpace := by
  unfold position logSpace at *
  by_cases hT : T = 0
  · rw [if_pos hT] at h hle ⊢
    split <;> omega
  · rw [if_neg hT] at h hle ⊢
    split <;> omega

/-- `erase_addr` after `T` bytes. -/
def frontier (T : ℕ) : ℕ :=
  if T ≤ logSpace then logEndAddr
  else if position T ≤ 0x10000 then secondSectorAddr else secondSectorAddr + 0x20000

/-- A section of the log with its write position `p` bytes behind the start. -/
def sectionAt (p dataStart front : ℕ) : DataSectionInfo where
  startAddr := logStartAddr
  endAddr := logEndAddr
  curWriteAddr := logStartAddr + p
  curReadAddr := logStartAddr
  dataStartAddr := dataStart
  dataEndAddr := logStartAddr + p
  eraseAddr := front
  magic := magicWord
  valid := headValidFlag

/-- The section after `T` bytes. -/
def configAt (T : ℕ) : DataSectionInfo :=
  sectionAt (position T) (if T ≤ logSpace then logStartAddr else frontier T) (frontier T)

theorem configAt_zero : configAt 0 = initialConfig := rfl

/-- The addresses that hold data after `T` bytes, the oldest first. -/
def keptAddrs (T : ℕ) : List ℕ :=
  if T ≤ logSpace then List.range' logStartAddr T
  else if position T ≤ 0x10000 then
    List.range' secondSectorAddr 0x1FFFF ++ List.range' logStartAddr (position T)
  else List.range' logStartAddr (position T)

/-- What a write of `len` bytes must not do: go round before the whole of the second sector has been
erased for this lap, or go round and fill more than the first sector. -/
def WriteFits (c : DataSectionInfo) (len : ℕ) : Prop :=
  c.endAddr < c.curWriteAddr + len →
    c.endAddr ≤ c.eraseAddr ∧ c.curWriteAddr + len - c.endAddr ≤ 0x10000

instance instDecidableFits (c : DataSectionInfo) (len : ℕ) : Decidable (WriteFits c len) :=
  inferInstanceAs (Decidable (c.endAddr < c.curWriteAddr + len →
    c.endAddr ≤ c.eraseAddr ∧ c.curWriteAddr + len - c.endAddr ≤ 0x10000))

theorem frontier_first {T : ℕ} (h : T ≤ logSpace) : frontier T = logEndAddr := if_pos h

theorem frontier_low {T : ℕ} (h : logSpace < T) (hp : position T ≤ 0x10000) :
    frontier T = secondSectorAddr := by
  rw [frontier, if_neg (Nat.not_le.2 h), if_pos hp]

theorem frontier_high {T : ℕ} (h : logSpace < T) (hp : 0x10000 < position T) :
    frontier T = secondSectorAddr + 0x20000 := by
  rw [frontier, if_neg (Nat.not_le.2 h), if_neg (Nat.not_le.2 hp)]

/-- Where a number of bytes is in its lap: on the first one, or on a later one in the first or in
the second sector. -/
theorem lap_cases (T : ℕ) : T ≤ logSpace ∨ (logSpace < T ∧ position T ≤ 0x10000) ∨
    (logSpace < T ∧ 0x10000 < position T) := by
  omega

theorem configAt_first {T : ℕ} (h : T ≤ logSpace) :
    configAt T = sectionAt (position T) logStartAddr logEndAddr := by
  rw [configAt, if_pos h, frontier_first h]

theorem configAt_low {T : ℕ} (h : logSpace < T) (hp : position T ≤ 0x10000) :
    configAt T = sectionAt (position T) secondSectorAddr secondSectorAddr := by
  rw [configAt, if_neg (Nat.not_le.2 h), frontier_low h hp]

theorem configAt_high {T : ℕ} (h : logSpace < T) (hp : 0x10000 < position T) :
    configAt T =
      sectionAt (position T) (secondSectorAddr + 0x20000) (secondSectorAddr + 0x20000) := by
  rw [configAt, if_neg (Nat.not_le.2 h), frontier_high h hp]

/-- A write that goes round ends on a later lap. -/
theorem lt_add_of_wrap {T len : ℕ} (h : logSpace < position T + len) : logSpace < T + len := by
  by_contra hle
  rw [position_of_le (by omega)] at h
  omega

/-! ### One write -/

variable {f : F} {buffer : List UInt8} {T : ℕ}

variable {p dataStart front : ℕ}

/-- The sum in `persistence_write` does not wrap around. -/
theorem add32_cur (dataStart front : ℕ) (h : p + buffer.length < 0x30000000) :
    add32 (sectionAt p dataStart front).curWriteAddr buffer.length =
      logStartAddr + p + buffer.length := by
  obtain ⟨hstart, -, -⟩ := addresses
  exact add32_of_lt (show logStartAddr + p + buffer.length < 2 ^ 32 by omega)

theorem le_end_iff : logStartAddr + p + buffer.length ≤ (sectionAt p dataStart front).endAddr ↔
    p + buffer.length ≤ logSpace := by
  obtain ⟨hstart, -, hend⟩ := addresses
  have hspace : logSpace = 0x2FFFF := rfl
  show logStartAddr + p + buffer.length ≤ logEndAddr ↔ _
  omega

/-- A write that stays in its lap and within what is erased. -/
theorem persistenceWrite_plain (hw : ∀ f addr data, (cb.writeCb f addr data).1 ≠ 0)
    (hspace : p + buffer.length ≤ logSpace)
    (hahead : logStartAddr + p + buffer.length ≤ front) :
    (persistenceWrite cb sectorSize (sectionAt p dataStart front) f buffer).2.1 =
      sectionAt (p + buffer.length) dataStart front := by
  have hlog : logSpace = 0x2FFFF := rfl
  have hadd := add32_cur dataStart front
    (show p + buffer.length < 0x30000000 by omega)
  have hahead' : ¬ (sectionAt p dataStart front).eraseAddr < logStartAddr + p + buffer.length :=
    Nat.not_lt.2 hahead
  rw [persistenceWrite]
  dsimp only
  rw [hadd, if_pos (le_end_iff.2 hspace), if_neg hahead', if_pos (hw _ _ _), hadd, sectionAt,
    sectionAt, Nat.add_assoc]

/-- A write that reaches the second sector of a later lap and erases it. -/
theorem persistenceWrite_erasing (fs : FlashSectors)
    (hw : ∀ f addr data, (cb.writeCb f addr data).1 ≠ 0) (hspace : p + buffer.length ≤ logSpace)
    (hcross : 0x10000 < p + buffer.length) :
    (persistenceWrite cb fs.getFlashSectorSize
        (sectionAt p secondSectorAddr secondSectorAddr) f buffer).2.1 =
      sectionAt (p + buffer.length) (secondSectorAddr + 0x20000) (secondSectorAddr + 0x20000) := by
  obtain ⟨hstart, hsecond, -⟩ := addresses
  have hlog : logSpace = 0x2FFFF := rfl
  have hadd := add32_cur secondSectorAddr secondSectorAddr
    (show p + buffer.length < 0x30000000 by omega)
  have herase : (sectionAt p secondSectorAddr secondSectorAddr).eraseAddr <
      logStartAddr + p + buffer.length := by
    show secondSectorAddr < _
    omega
  have hsize : add32 secondSectorAddr (fs.getFlashSectorSize secondSectorAddr) =
      secondSectorAddr + 0x20000 := by
    rw [fs.size_second]
    rfl
  have hahead : (eraseAhead cb fs.getFlashSectorSize
      (sectionAt p secondSectorAddr secondSectorAddr) f).1 =
        { sectionAt p secondSectorAddr secondSectorAddr with
          eraseAddr := secondSectorAddr + 0x20000
          dataStartAddr := secondSectorAddr + 0x20000 } := by
    -- `end_addr` is the last byte of the sector, so both comparisons with it fail
    have hne : ¬ logEndAddr = secondSectorAddr := by decide
    have hne' : ¬ secondSectorAddr + 0x20000 = logEndAddr := by decide
    simp only [eraseAhead, sectionAt, hne, hsize, hne', if_false]
  rw [persistenceWrite]
  dsimp only
  rw [hadd, if_pos (le_end_iff.2 hspace), if_pos herase, if_pos (hw _ _ _), hahead]
  dsimp only
  rw [hadd, sectionAt, sectionAt, Nat.add_assoc]

/-- A write that goes round. -/
theorem persistenceWrite_wrapping (fs : FlashSectors)
    (hw : ∀ f addr data, (cb.writeCb f addr data).1 ≠ 0) (hp : p ≤ logSpace)
    (hwrap : logSpace < p + buffer.length) (hspill : p + buffer.length ≤ logSpace + 0x10000) :
    (persistenceWrite cb fs.getFlashSectorSize (sectionAt p dataStart front) f buffer).2.1 =
      sectionAt (p + buffer.length - logSpace) secondSectorAddr secondSectorAddr := by
  obtain ⟨hstart, hsecond, hend⟩ := addresses
  have hlog : logSpace = 0x2FFFF := rfl
  have hadd := add32_cur dataStart front
    (show p + buffer.length < 0x30000000 by omega)
  have hsize : add32 logStartAddr (fs.getFlashSectorSize logStartAddr) = secondSectorAddr := by
    rw [fs.size_first]
    rfl
  have hrest : sub32 logEndAddr (logStartAddr + p) = logSpace - p := by
    rw [sub32_of_le (by omega) (by omega)]
    omega
  have hmore : add32 logStartAddr (sub32 buffer.length (logSpace - p)) =
      logStartAddr + (p + buffer.length - logSpace) := by
    rw [sub32_of_le (by omega) (by omega), add32_of_lt (by omega)]
    omega
  rw [persistenceWrite]
  dsimp only
  rw [hadd, if_neg (fun hle ↦ absurd (le_end_iff.1 hle) (Nat.not_le.2 hwrap)), if_pos (hw _ _ _)]
  simp only [sectionAt, hrest, hmore, hsize]

/-- Where a write takes the log: on within the part that is erased already, from the first sector of
a later lap into the second, or round. -/
inductive WriteCase (T len : ℕ) : Prop
  | plain (hspace : position T + len ≤ logSpace)
      (hahead : logStartAddr + position T + len ≤ frontier T)
  | erasing (hT : logSpace < T) (hlow : position T ≤ 0x10000) (hcross : 0x10000 < position T + len)
      (hspace : position T + len ≤ logSpace)
  | wrapping (hT : T ≤ logSpace ∨ 0x10000 < position T) (hwrap : logSpace < position T + len)
      (hspill : position T + len ≤ logSpace + 0x10000)

/-- **A write that fits is one of the three.** -/
theorem writeCase_of_writeFits {len : ℕ} (hfit : WriteFits (configAt T) len) : WriteCase T len := by
  obtain ⟨hstart, hsecond, hend⟩ := addresses
  have hspace : logSpace = 0x2FFFF := rfl
  have hpos := position_le T
  by_cases hwrap : logSpace < position T + len
  · have hover : (configAt T).endAddr < (configAt T).curWriteAddr + len := by
      show logEndAddr < logStartAddr + position T + len
      omega
    obtain ⟨hahead, hspill⟩ := hfit hover
    have hspill' : logStartAddr + position T + len - logEndAddr ≤ 0x10000 := hspill
    refine .wrapping ?_ hwrap (by omega)
    rcases lap_cases T with hT | ⟨hT, hlow⟩ | ⟨-, hhigh⟩
    · exact .inl hT
    · rw [configAt_low hT hlow] at hahead
      exact absurd hahead (by decide : ¬ logEndAddr ≤ secondSectorAddr)
    · exact .inr hhigh
  · rcases lap_cases T with hT | ⟨hT, hlow⟩ | ⟨hT, hhigh⟩
    · refine .plain (Nat.not_lt.1 hwrap) ?_
      rw [frontier_first hT]
      omega
    · by_cases hcross : 0x10000 < position T + len
      · exact .erasing hT hlow hcross (Nat.not_lt.1 hwrap)
      · refine .plain (Nat.not_lt.1 hwrap) ?_
        rw [frontier_low hT hlow]
        omega
    · refine .plain (Nat.not_lt.1 hwrap) ?_
      rw [frontier_high hT hhigh]
      omega

/-- Writes of up to 64 KiB fit. -/
theorem writeFits_of_le {len : ℕ} (hlen : len ≤ 0x10000) : WriteFits (configAt T) len := by
  obtain ⟨hstart, hsecond, hend⟩ := addresses
  intro hover
  have hover' : logEndAddr < logStartAddr + position T + len := hover
  have hpos := position_le T
  have hspace : logSpace = 0x2FFFF := rfl
  constructor
  · show logEndAddr ≤ frontier T
    rcases lap_cases T with hT | ⟨hT, hlow⟩ | ⟨hT, hhigh⟩
    · exact (frontier_first hT).ge
    · omega
    · rw [frontier_high hT hhigh]
      omega
  · show logStartAddr + position T + len - logEndAddr ≤ 0x10000
    omega

variable (fs : FlashSectors)

/-- **What one write makes of the section**, on every lap. -/
theorem persistenceWrite_config (hw : ∀ f addr data, (cb.writeCb f addr data).1 ≠ 0)
    (hfit : WriteFits (configAt T) buffer.length) :
    (persistenceWrite cb fs.getFlashSectorSize (configAt T) f buffer).2.1 =
      configAt (T + buffer.length) := by
  obtain ⟨hstart, hsecond, hend⟩ := addresses
  have hspace : logSpace = 0x2FFFF := rfl
  cases writeCase_of_writeFits hfit with
  | plain hin hahead =>
    have hp := position_add hin
    rcases lap_cases T with hT | ⟨hT, hlow⟩ | ⟨hT, hhigh⟩
    · have hT' : T + buffer.length ≤ logSpace := by rwa [position_of_le hT] at hin
      rw [frontier_first hT] at hahead
      rw [configAt_first hT, configAt_first hT', hp, persistenceWrite_plain hw hin hahead]
    · rw [frontier_low hT hlow] at hahead
      rw [configAt_low hT hlow, configAt_low (by omega) (by omega), hp,
        persistenceWrite_plain hw hin hahead]
    · rw [frontier_high hT hhigh] at hahead
      rw [configAt_high hT hhigh, configAt_high (by omega) (by omega), hp,
        persistenceWrite_plain hw hin hahead]
  | erasing hT hlow hcross hin =>
    have hp := position_add hin
    rw [configAt_low hT hlow, configAt_high (by omega) (by omega), hp,
      persistenceWrite_erasing fs hw hin hcross]
  | wrapping hT hwrap hspill =>
    have hp := position_add_of_lt hwrap hspill
    rw [configAt_low (lt_add_of_wrap hwrap) (by omega), hp, configAt,
      persistenceWrite_wrapping fs hw (position_le T) hwrap hspill]

/-! ### What one write programs and what it leaves -/

/-- The addresses that hold data when they run on from the start of the log. -/
theorem keptAddrs_of (hT : T ≤ logSpace ∨ 0x10000 < position T) :
    keptAddrs T = List.range' logStartAddr (position T) := by
  rw [keptAddrs]
  split
  · next h => rw [position_of_le h]
  · next h => rw [if_neg (Nat.not_le.2 (hT.resolve_left h))]

theorem keptAddrs_low (hT : logSpace < T) (hlow : position T ≤ 0x10000) :
    keptAddrs T =
      List.range' secondSectorAddr 0x1FFFF ++ List.range' logStartAddr (position T) := by
  rw [keptAddrs, if_neg (Nat.not_le.2 hT), if_pos hlow]

/-- Erasing the first sector behind a full lap leaves the second. -/
theorem filter_first :
    (List.range' logStartAddr logSpace).filter
        (fun a ↦ fs.getFlashSector a ≠ fs.getFlashSector logStartAddr) =
      List.range' secondSectorAddr 0x1FFFF := by
  obtain ⟨hstart, hsecond, -⟩ := addresses
  have hsplit : List.range' logStartAddr logSpace =
      List.range' logStartAddr 0x10000 ++ List.range' secondSectorAddr 0x1FFFF :=
    (List.range'_append_1 (s := logStartAddr) (m := 0x10000) (n := 0x1FFFF)).symm
  rw [hsplit]
  refine filter_ne_append (fun a ha ↦ ?_) fun a ha heq ↦ ?_
  · rw [List.mem_range'_1] at ha
    exact (fs.first_iff a).2 ha
  · rw [List.mem_range'_1] at ha
    have := (fs.first_iff a).1 heq
    omega

/-- Erasing the second sector leaves what has been written to the first on this lap. -/
theorem filter_second {p : ℕ} (hp : p ≤ 0x10000) :
    (List.range' secondSectorAddr 0x1FFFF ++ List.range' logStartAddr p).filter
        (fun a ↦ fs.getFlashSector a ≠ fs.getFlashSector secondSectorAddr) =
      List.range' logStartAddr p := by
  obtain ⟨hstart, hsecond, -⟩ := addresses
  refine filter_ne_append (fun a ha ↦ ?_) fun a ha heq ↦ ?_
  · rw [List.mem_range'_1] at ha
    exact (fs.second_iff a).2 ⟨ha.1, by omega⟩
  · rw [List.mem_range'_1] at ha
    have := (fs.second_iff a).1 heq
    omega

/-- The area of the log, as the section states it. -/
def logArea : Set ℕ := {a | logStartAddr ≤ a ∧ a < logEndAddr}

variable {kept : List (ℕ × UInt8)}

/-- The accesses of a write that stays within what is erased. -/
theorem writeAccesses_plain (hspace : p + buffer.length ≤ logSpace)
    (hahead : logStartAddr + p + buffer.length ≤ front) :
    writeAccesses (sectionAt p dataStart front) buffer = [.program (logStartAddr + p) buffer] := by
  have hlog : logSpace = 0x2FFFF := rfl
  have hahead' : ¬ (sectionAt p dataStart front).eraseAddr < logStartAddr + p + buffer.length :=
    Nat.not_lt.2 hahead
  rw [writeAccesses, add32_cur _ _ (by omega), if_pos (le_end_iff.2 hspace), if_neg hahead',
    List.nil_append]
  rfl

theorem writeAccesses_erasing (hspace : p + buffer.length ≤ logSpace)
    (hcross : 0x10000 < p + buffer.length) :
    writeAccesses (sectionAt p dataStart secondSectorAddr) buffer =
      [.erase secondSectorAddr, .program (logStartAddr + p) buffer] := by
  obtain ⟨hstart, hsecond, -⟩ := addresses
  have hlog : logSpace = 0x2FFFF := rfl
  have herase : (sectionAt p dataStart secondSectorAddr).eraseAddr <
      logStartAddr + p + buffer.length := by
    show secondSectorAddr < _
    omega
  rw [writeAccesses, add32_cur _ _ (by omega), if_pos (le_end_iff.2 hspace), if_pos herase]
  rfl

theorem writeAccesses_wrapping (hp : p ≤ logSpace) (hwrap : logSpace < p + buffer.length)
    (h32 : p + buffer.length < 0x30000000) :
    writeAccesses (sectionAt p dataStart front) buffer =
      [.program (logStartAddr + p) (buffer.take (logSpace - p)), .erase logStartAddr,
        .program logStartAddr (buffer.drop (logSpace - p))] := by
  obtain ⟨hstart, -, hend⟩ := addresses
  have hlog : logSpace = 0x2FFFF := rfl
  have hrest : sub32 (sectionAt p dataStart front).endAddr
      (sectionAt p dataStart front).curWriteAddr = logSpace - p := by
    have hle : logStartAddr + p ≤ logEndAddr := by omega
    calc sub32 logEndAddr (logStartAddr + p)
        = logEndAddr - (logStartAddr + p) := sub32_of_le hle (by omega)
      _ = logSpace - p := by omega
  rw [writeAccesses, add32_cur _ _ h32,
    if_neg (fun hle ↦ absurd (le_end_iff.1 hle) (Nat.not_le.2 hwrap)), hrest]
  rfl

/-- Data that goes to addresses behind those kept in the first part of a list and before those kept
in the second goes to blank ones. -/
theorem sound_program {addr n : ℕ} {data : List UInt8} {old : List ℕ}
    (hkept : kept.map Prod.fst = old ++ List.range' logStartAddr n)
    (hold : ∀ a ∈ old, addr + data.length ≤ a) (hn : logStartAddr + n ≤ addr)
    (hend : addr + data.length ≤ logEndAddr) :
    (Access.program addr data).Sound logArea kept := by
  intro a ha
  rw [List.mem_range'_1] at ha
  refine ⟨⟨by omega, by omega⟩, fun hmem ↦ ?_⟩
  rw [hkept, List.mem_append, List.mem_range'_1] at hmem
  rcases hmem with hmem | hmem
  · have := hold a hmem
    omega
  · omega

/-- Data written on from the last of the kept bytes. -/
theorem map_fst_retain_program {n : ℕ} (data : List UInt8) {old : List ℕ}
    (hkept : kept.map Prod.fst = old ++ List.range' logStartAddr n) :
    ((Access.program (logStartAddr + n) data).retain fs.getFlashSector kept).map Prod.fst =
      old ++ List.range' logStartAddr (n + data.length) := by
  rw [Access.retain, List.map_append, map_fst_cells, hkept, List.append_assoc,
    List.range'_append_1]

/-- **One write that fits programs blank cells of the log, and keeps what `keptAddrs` says.** -/
theorem writeAccesses_sound (hkept : kept.map Prod.fst = keptAddrs T)
    (hfit : WriteFits (configAt T) buffer.length) :
    EachFrom fs.getFlashSector (fun k x ↦ x.Sound logArea k) kept
        (writeAccesses (configAt T) buffer) ∧
      (retainedFrom fs.getFlashSector kept (writeAccesses (configAt T) buffer)).map Prod.fst =
        keptAddrs (T + buffer.length) := by
  obtain ⟨hstart, hsecond, hend⟩ := addresses
  have hlog : logSpace = 0x2FFFF := rfl
  cases writeCase_of_writeFits hfit with
  | plain hspace hahead =>
    have hp := position_add hspace
    rw [configAt, writeAccesses_plain hspace hahead]
    rcases lap_cases T with hT | ⟨hT, hlow⟩ | ⟨hT, hhigh⟩
    · rw [keptAddrs_of (.inl hT), ← List.nil_append (List.range' _ _)] at hkept
      have hT' : T + buffer.length ≤ logSpace := by rwa [position_of_le hT] at hspace
      refine ⟨⟨sound_program hkept (fun a ha ↦ absurd ha List.not_mem_nil) le_rfl (by omega),
        trivial⟩, ?_⟩
      rw [keptAddrs_of (.inl hT'), hp]
      exact map_fst_retain_program fs _ hkept
    · rw [keptAddrs_low hT hlow] at hkept
      rw [frontier_low hT hlow] at hahead
      refine ⟨⟨sound_program hkept (fun a ha ↦ ?_) le_rfl (by omega), trivial⟩, ?_⟩
      · exact hahead.trans (List.mem_range'_1.1 ha).1
      · rw [keptAddrs_low (by omega) (by omega), hp]
        exact map_fst_retain_program fs _ hkept
    · rw [keptAddrs_of (.inr hhigh), ← List.nil_append (List.range' _ _)] at hkept
      refine ⟨⟨sound_program hkept (fun a ha ↦ absurd ha List.not_mem_nil) le_rfl (by omega),
        trivial⟩, ?_⟩
      rw [keptAddrs_of (.inr (by omega)), hp]
      exact map_fst_retain_program fs _ hkept
  | erasing hT hlow hcross hspace =>
    have hp := position_add hspace
    rw [configAt_low hT hlow, writeAccesses_erasing hspace hcross]
    have hkept' : ((Access.erase secondSectorAddr).retain fs.getFlashSector kept).map Prod.fst =
        [] ++ List.range' logStartAddr (position T) := by
      rw [map_fst_retain_erase, hkept, keptAddrs_low hT hlow, filter_second fs hlow,
        List.nil_append]
    refine ⟨⟨trivial, sound_program hkept' (fun a ha ↦ absurd ha List.not_mem_nil) le_rfl
      (by omega), trivial⟩, ?_⟩
    rw [keptAddrs_of (.inr (by omega)), hp]
    exact map_fst_retain_program fs _ hkept'
  | wrapping hT hwrap hspill =>
    have hpos := position_le T
    have hp := position_add_of_lt hwrap hspill
    rw [configAt, writeAccesses_wrapping hpos hwrap (by omega)]
    rw [keptAddrs_of hT, ← List.nil_append (List.range' _ _)] at hkept
    have htake : (buffer.take (logSpace - position T)).length = logSpace - position T := by
      rw [List.length_take]
      omega
    have hdrop : (buffer.drop (logSpace - position T)).length =
        position T + buffer.length - logSpace := by
      rw [List.length_drop]
      omega
    -- the lap is full, and only its second sector is left by the erase
    have hfull := map_fst_retain_program fs (buffer.take (logSpace - position T)) hkept
    rw [htake, Nat.add_sub_of_le hpos, List.nil_append] at hfull
    have hkept' : ((Access.erase logStartAddr).retain fs.getFlashSector
        ((Access.program (logStartAddr + position T) (buffer.take (logSpace - position T))).retain
          fs.getFlashSector kept)).map Prod.fst =
        List.range' secondSectorAddr 0x1FFFF ++ List.range' logStartAddr 0 := by
      rw [map_fst_retain_erase, hfull, filter_first, List.range'_zero, List.append_nil]
    refine ⟨⟨sound_program hkept (fun a ha ↦ absurd ha List.not_mem_nil) le_rfl (by omega),
      trivial, sound_program hkept' (fun a ha ↦ ?_) le_rfl (by omega), trivial⟩, ?_⟩
    · have := (List.mem_range'_1.1 ha).1
      omega
    · have hnew := map_fst_retain_program fs (buffer.drop (logSpace - position T)) hkept'
      rw [Nat.zero_add, hdrop] at hnew
      rw [keptAddrs_low (lt_add_of_wrap hwrap) (by omega), hp]
      exact hnew

/-! ### Runs of writes -/

/-- The writes of a run all fit. -/
def FitsAlong (cb : Callbacks F) (sectorSize : ℕ → ℕ) :
    DataSectionInfo × F → List (List UInt8) → Prop
  | _, [] => True
  | s, buffer :: buffers => WriteFits s.1 buffer.length ∧
      FitsAlong cb sectorSize (persistenceWrite cb sectorSize s.1 s.2 buffer).2 buffers

theorem writeAll_follows (hR : CallsVia cb R) (sectorSize : ℕ → ℕ) (s : DataSectionInfo × F)
    (buffers : List (List UInt8)) :
    ∃ h, Follows R s.2 h (writeAll cb sectorSize s buffers).2 := by
  induction buffers generalizing s with
  | nil => exact ⟨[], .nil _⟩
  | cons buffer buffers ih =>
    obtain ⟨h, hh⟩ := ih (persistenceWrite cb sectorSize s.1 s.2 buffer).2
    exact ⟨_, (persistenceWrite_follows hR sectorSize s.1 s.2 buffer).append hh⟩

theorem record_write (c : DataSectionInfo) (s : F × List (Access UInt8)) :
    (persistenceWrite cb.record sectorSize c s buffer).2.2.2 = s.2 ++ writeAccesses c buffer := by
  have hR : CallsVia cb fun _ _ _ ↦ True := ⟨fun _ _ _ ↦ trivial, fun _ _ _ ↦ trivial,
    fun _ _ _ ↦ trivial⟩
  exact (follows_recorded (persistenceWrite_follows hR.record sectorSize c s buffer)).1

/-- The state after one write that fits. -/
theorem write_state (hw : ∀ f addr data, (cb.writeCb f addr data).1 ≠ 0)
    (hfit : WriteFits (configAt T) buffer.length) (h : List (Access UInt8)) :
    ∃ f', (persistenceWrite cb.record fs.getFlashSectorSize (configAt T) (f, h) buffer).2 =
      (configAt (T + buffer.length), f', h ++ writeAccesses (configAt T) buffer) := by
  have hw' : ∀ s addr data, (cb.record.writeCb s addr data).1 ≠ 0 := fun s _ _ ↦ hw s.1 _ _
  exact ⟨_, Prod.ext (persistenceWrite_config fs hw' hfit)
    (Prod.ext rfl (record_write (configAt T) (f, h)))⟩

/-- **Writes of up to 64 KiB program blank cells only**, and keep what `keptAddrs` says. -/
theorem writeAll_sound (hw : ∀ f addr data, (cb.writeCb f addr data).1 ≠ 0)
    {buffers : List (List UInt8)} (hlen : ∀ b ∈ buffers, b.length ≤ 0x10000)
    {h : List (Access UInt8)}
    (hsound : EachFrom fs.getFlashSector (fun k x ↦ x.Sound logArea k) [] h)
    (hkept : (retainedFrom fs.getFlashSector [] h).map Prod.fst = keptAddrs T) :
    ∃ f' h', writeAll cb.record fs.getFlashSectorSize (configAt T, f, h) buffers =
        (configAt (T + buffers.flatten.length), f', h') ∧
      EachFrom fs.getFlashSector (fun k x ↦ x.Sound logArea k) [] h' ∧
      (retainedFrom fs.getFlashSector [] h').map Prod.fst =
        keptAddrs (T + buffers.flatten.length) := by
  induction buffers generalizing T f h with
  | nil => exact ⟨f, h, rfl, hsound, hkept⟩
  | cons buffer buffers ih =>
    have hfit := writeFits_of_le (T := T) (hlen buffer List.mem_cons_self)
    obtain ⟨f₁, hstate⟩ := write_state (f := f) fs hw hfit h
    obtain ⟨hnow, hkept₁⟩ := writeAccesses_sound fs hkept hfit
    obtain ⟨f', h', hrest, hsound', hkept'⟩ := ih (T := T + buffer.length) (f := f₁)
      (fun b hb ↦ hlen b (List.mem_cons_of_mem _ hb)) ((eachFrom_append _ _).2 ⟨hsound, hnow⟩)
      (by rw [retainedFrom_append]; exact hkept₁)
    rw [List.flatten_cons, List.length_append, ← Nat.add_assoc]
    refine ⟨f', h', ?_, hsound', hkept'⟩
    rw [← hstate] at hrest
    exact hrest

/-! ### Flash callbacks -/

/-- Flash callbacks: they succeed, reads deliver the stored bytes, and an access does to the cells
what it does in a flash memory. -/
structure FlashCallbacks (fs : FlashSectors) (cb : Callbacks F) (view : F → Cells UInt8) : Prop where
  write_ok : ∀ f addr data, (cb.writeCb f addr data).1 ≠ 0
  read_ok : ∀ f addr len, (cb.readCb f addr len).1 ≠ 0
  read_bytes : ∀ f addr len,
    (cb.readCb f addr len).2.1 = (List.range' addr len).map (view f).byteAt
  calls : CallsVia cb fun f x f' ↦ Accessed fs.getFlashSector (view f) x (view f')

/-- Callbacks on a memory of bytes with the sectors of `fs`. -/
def norCallbacks (fs : FlashSectors) : Callbacks (ℕ → UInt8) where
  writeCb m addr data := (1, program m addr data)
  readCb m addr len := (1, (List.range' addr len).map m, m)
  eraseCb m addr _ := (1, eraseSector fs.getFlashSector m addr)

theorem flashCallbacks_norCallbacks (fs : FlashSectors) :
    FlashCallbacks fs (norCallbacks fs) norCells where
  write_ok _ _ _ := one_ne_zero
  read_ok _ _ _ := one_ne_zero
  read_bytes _ _ _ := rfl
  calls :=
    { writeCb := fun m addr data ↦ (programmed_program m addr data).accessed
      eraseCb := fun m addr _ ↦ (erased_eraseSector m addr).accessed
      readCb := fun _ _ _ _ ↦ sameAt_norCells rfl }

/-- A memory that has been erased. -/
def blankMemory : ℕ → UInt8 := fun _ ↦ 0xFF

end Mblue
