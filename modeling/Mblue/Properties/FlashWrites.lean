import Mblue.Persistence.Frontier

/-!
# Flash is programmed only where it is erased

`persistence_write` erases at most one sector per call. That is enough as long as a write that goes
round does so behind the frontier and spills no further than the first sector, and it is not enough
otherwise: in a run of writes of up to 128 KiB every byte goes to a blank address of the log exactly
when every write meets `WriteFits`.
-/

namespace Mblue

open NorFlash

variable {F : Type} {cb : Callbacks F} {f : F} {T : ℕ} {buffer : List UInt8}
  {kept : List (ℕ × UInt8)} (fs : FlashSectors)

/-- The accesses that a run of writes makes, from the initial configuration on. -/
def writeHistory (cb : Callbacks F) (f : F) (buffers : List (List UInt8)) : List (Access UInt8) :=
  (writeAll cb.record fs.getFlashSectorSize (initialConfig, f, []) buffers).2.2

/-- Every byte of a history is programmed at an address of the log that is blank at that moment. -/
def ProgramsBlank (h : List (Access UInt8)) : Prop :=
  EachFrom fs.getFlashSector (fun kept x ↦ x.Sound logArea kept) [] h

/-- What is kept when a lap is filled and the first sector erased for the next one. -/
theorem map_fst_retained_round {p : ℕ} {data : List UInt8} (hp : p ≤ logSpace)
    (hkept : kept.map Prod.fst = List.range' logStartAddr p)
    (hdata : data.length = logSpace - p) :
    (retainedFrom fs.getFlashSector kept
        [.program (logStartAddr + p) data, .erase logStartAddr]).map Prod.fst =
      List.range' secondSectorAddr 0x1FFFF := by
  rw [← List.nil_append (List.range' _ _)] at hkept
  have hfull := map_fst_retain_program fs data hkept
  rw [hdata, Nat.add_sub_of_le hp, List.nil_append] at hfull
  rw [retainedFrom_cons, retainedFrom_cons, retainedFrom_nil, map_fst_retain_erase, hfull,
    filter_first]

/-- **A write that does not fit programs an address that holds data.** -/
theorem not_sound_of_not_writeFits (hkept : kept.map Prod.fst = keptAddrs T)
    (hlen : buffer.length ≤ 0x20000) (hfit : ¬ WriteFits (configAt T) buffer.length) :
    ¬ EachFrom fs.getFlashSector (fun k x ↦ x.Sound logArea k) kept
      (writeAccesses (configAt T) buffer) := by
  obtain ⟨hstart, hsecond, hend⟩ := addresses
  have hlog : logSpace = 0x2FFFF := rfl
  have hpos := position_le T
  obtain ⟨hover, hbad⟩ := Classical.not_imp.1 hfit
  have hover' : logEndAddr < logStartAddr + position T + buffer.length := hover
  have hwrap : logSpace < position T + buffer.length := by omega
  rw [configAt, writeAccesses_wrapping hpos hwrap (by omega)]
  have htake : (buffer.take (logSpace - position T)).length = logSpace - position T := by
    rw [List.length_take]
    omega
  intro hsound
  by_cases hT : T ≤ logSpace ∨ 0x10000 < position T
  · -- the spill reaches the second sector, which has not been erased since it was filled
    have hspill : 0x10000 < position T + buffer.length - logSpace := by
      by_contra hle
      refine hbad ⟨show logEndAddr ≤ frontier T from ?_,
        show logStartAddr + position T + buffer.length - logEndAddr ≤ 0x10000 by omega⟩
      rcases hT with hT | hT
      · exact (frontier_first hT).ge
      · rcases lap_cases T with h | ⟨-, h⟩ | ⟨h, -⟩
        · exact (frontier_first h).ge
        · omega
        · rw [frontier_high h hT]
          omega
    have hround := map_fst_retained_round fs hpos (hkept.trans (keptAddrs_of hT)) htake
    have hdrop : (buffer.drop (logSpace - position T)).length =
        position T + buffer.length - logSpace := by
      rw [List.length_drop]
      omega
    have hmem : secondSectorAddr ∈
        List.range' logStartAddr (buffer.drop (logSpace - position T)).length := by
      rw [List.mem_range'_1]
      omega
    refine (hsound.2.2.1 secondSectorAddr hmem).2 ?_
    have hold : secondSectorAddr ∈ List.range' secondSectorAddr 0x1FFFF :=
      List.mem_range'_1.2 ⟨le_rfl, by omega⟩
    rw [← hround] at hold
    exact hold
  · -- the write starts on the second sector, which the erase of this call leaves out
    obtain ⟨hlater, hlow⟩ := not_or.1 hT
    have hmem : logStartAddr + position T ∈ List.range' (logStartAddr + position T)
        (buffer.take (logSpace - position T)).length := by
      rw [List.mem_range'_1]
      omega
    refine (hsound.1 _ hmem).2 ?_
    rw [hkept, keptAddrs_low (Nat.not_le.1 hlater) (Nat.not_lt.1 hlow), List.mem_append]
    exact .inl (List.mem_range'_1.2 ⟨by omega, by omega⟩)

/-- The record of a run of writes goes on from what it was. -/
theorem record_prefix (cb : Callbacks F) (s : DataSectionInfo × F × List (Access UInt8))
    (buffers : List (List UInt8)) :
    s.2.2 <+: (writeAll cb.record fs.getFlashSectorSize s buffers).2.2 := by
  have hR : CallsVia cb fun _ _ _ ↦ True := ⟨fun _ _ _ ↦ trivial, fun _ _ _ ↦ trivial,
    fun _ _ _ ↦ trivial⟩
  obtain ⟨h, hh⟩ := writeAll_follows hR.record fs.getFlashSectorSize s buffers
  exact ⟨h, (follows_recorded hh).1.symm⟩

/-- From any state of a run whose writes were sound so far, the rest is sound exactly when every
write of it fits. -/
theorem programsBlank_iff_fitsAlong (hw : ∀ f addr data, (cb.writeCb f addr data).1 ≠ 0)
    {buffers : List (List UInt8)} (hlen : ∀ b ∈ buffers, b.length ≤ 0x20000)
    {h : List (Access UInt8)} (hsound : ProgramsBlank fs h)
    (hkept : (retainedFrom fs.getFlashSector [] h).map Prod.fst = keptAddrs T) :
    ProgramsBlank fs
        (writeAll cb.record fs.getFlashSectorSize (configAt T, f, h) buffers).2.2 ↔
      FitsAlong cb.record fs.getFlashSectorSize (configAt T, f, h) buffers := by
  induction buffers generalizing T f h with
  | nil => exact iff_of_true hsound trivial
  | cons buffer buffers ih =>
    by_cases hfit : WriteFits (configAt T) buffer.length
    · obtain ⟨hnow, hkept'⟩ := writeAccesses_sound fs hkept hfit
      obtain ⟨f', hstate⟩ := write_state (f := f) fs hw hfit h
      have hrest := ih (T := T + buffer.length) (f := f')
        (fun b hb ↦ hlen b (List.mem_cons_of_mem _ hb)) ((eachFrom_append _ _).2 ⟨hsound, hnow⟩)
        (by rw [retainedFrom_append]; exact hkept')
      rw [← hstate] at hrest
      exact hrest.trans (and_iff_right hfit).symm
    · -- the record of this write stays in the record of the run
      refine iff_of_false (fun hall ↦ ?_) fun hall ↦ hfit hall.1
      obtain ⟨rest, hr⟩ := record_prefix fs cb
        (persistenceWrite cb.record fs.getFlashSectorSize (configAt T) (f, h) buffer).2 buffers
      rw [record_write] at hr
      have hall' : ProgramsBlank fs ((h ++ writeAccesses (configAt T) buffer) ++ rest) := by
        rw [hr]
        exact hall
      exact not_sound_of_not_writeFits fs hkept (hlen buffer List.mem_cons_self) hfit
        ((eachFrom_append _ _).1 ((eachFrom_append _ _).1 hall').1).2

/-- **When flash is programmed only where it is blank.** In a run of writes of up to 128 KiB every
byte goes to a blank address of the log if and only if no write goes round before the second sector
has been erased for its lap, and none that goes round spills over more than the first sector. -/
theorem programsBlank_iff (hw : ∀ f addr data, (cb.writeCb f addr data).1 ≠ 0)
    {buffers : List (List UInt8)} (hlen : ∀ b ∈ buffers, b.length ≤ 0x20000) :
    ProgramsBlank fs (writeHistory fs cb f buffers) ↔
      FitsAlong cb.record fs.getFlashSectorSize (initialConfig, f, []) buffers :=
  programsBlank_iff_fitsAlong (T := 0) fs hw hlen trivial rfl

theorem programsBlank_two :
    ProgramsBlank boardSectors
      (writeHistory boardSectors (norCallbacks boardSectors) blankMemory [[1, 2], [3]]) :=
  (programsBlank_iff boardSectors (flashCallbacks_norCallbacks boardSectors).write_ok
    (by decide)).2 ⟨by decide, by decide, trivial⟩

/-- Of two writes of 128 KiB the second goes round and spills over 65537 bytes. -/
theorem not_programsBlank_of_length (hw : ∀ f addr data, (cb.writeCb f addr data).1 ≠ 0)
    {b₁ b₂ : List UInt8} (h₁ : b₁.length = 0x20000) (h₂ : b₂.length = 0x20000) :
    (∀ b ∈ [b₁, b₂], b.length ≤ 0x20000) ∧
      ¬ ProgramsBlank fs (writeHistory fs cb f [b₁, b₂]) := by
  have hlen : ∀ b ∈ [b₁, b₂], b.length ≤ 0x20000 := by
    intro b hb
    simp only [List.mem_cons, List.not_mem_nil, or_false] at hb
    rcases hb with rfl | rfl <;> omega
  refine ⟨hlen, fun hall ↦ ?_⟩
  have hfits : FitsAlong cb.record fs.getFlashSectorSize (configAt 0, f, []) [b₁, b₂] :=
    (programsBlank_iff_fitsAlong (h := []) fs hw hlen trivial rfl).1 hall
  have hsecond := hfits.2.1
  rw [persistenceWrite_config fs (fun s ↦ hw s.1) hfits.1, h₁, h₂] at hsecond
  exact absurd hsecond (by decide)

theorem not_programsBlank_two :
    (∀ b ∈ [List.replicate 0x20000 (1 : UInt8), List.replicate 0x20000 2], b.length ≤ 0x20000) ∧
      ¬ ProgramsBlank boardSectors (writeHistory boardSectors (norCallbacks boardSectors)
        blankMemory [List.replicate 0x20000 1, List.replicate 0x20000 2]) :=
  not_programsBlank_of_length boardSectors (flashCallbacks_norCallbacks boardSectors).write_ok
    List.length_replicate List.length_replicate

end Mblue
