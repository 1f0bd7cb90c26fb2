import Mblue.Persistence.Reading

/-!
# Reading the flash log back

After writes of up to 64 KiB from the initial configuration, a pass of `persistence_read` delivers
the bytes that have not been erased since, from inside the log, as long as the log has not reached
the end of the first sector on a later lap. There `data_start_addr` equals `data_end_addr` and the
full log reads as empty; and once the second sector has been erased, `data_start_addr` lies one
byte behind `end_addr`, so the test that would send it back to `start_addr` fails and the first read
starts outside the log with a length of `2 ^ 32 - 1`.
-/

namespace Mblue

open NorFlash

variable {F : Type} {cb : Callbacks F} {view : F → Cells UInt8} {f : F} {chunks : ℕ → ℕ}
  {T : ℕ} (fs : FlashSectors)

/-- The bytes that a record of accesses leaves, the oldest first. -/
def retainedBytes (h : List (Access UInt8)) : List UInt8 :=
  (retainedFrom fs.getFlashSector [] h).map Prod.snd

/-- A pass from `data_start_addr` on ends, has delivered exactly what the record of the writes
leaves, and has passed no range to `read_cb` that does not lie inside the log. -/
def ReadsBack (cb : Callbacks F) (chunks : ℕ → ℕ)
    (s : DataSectionInfo × F × List (Access UInt8)) : Prop :=
  ∃ fuel s', readPass cb.record fuel chunks (rewindRead s.1) (s.2.1, []) =
      some (retainedBytes fs s.2.2, s') ∧ ∀ x ∈ s'.2, InLog x

/-- No sum of a read position and a chunk length exceeds 32 bits before the pass is over. -/
def ChunksFit (cb : Callbacks F) (chunks : ℕ → ℕ)
    (s : DataSectionInfo × F × List (Access UInt8)) : Prop :=
  ∀ n, NoOverflow cb.record n chunks (rewindRead s.1) (s.2.1, [])

variable {fs}

/-- **A pass over a readable section** delivers what the device holds exactly when no sum wraps
around. -/
theorem readsBack_of_readable (hcb : FlashCallbacks fs cb view) (hpos : ∀ k, 0 < chunks k)
    (h32 : ∀ k, chunks k < 2 ^ 32) {p dataStart front : ℕ} {h : List (Access UInt8)}
    (hread : Readable p dataStart dataStart)
    (hholds : Holds logArea (view f) (retainedFrom fs.getFlashSector [] h))
    (hkept : (retainedFrom fs.getFlashSector [] h).map Prod.fst = unread p dataStart dataStart) :
    ReadsBack fs cb chunks (sectionAt p dataStart front, f, h) ↔
      ChunksFit cb chunks (sectionAt p dataStart front, f, h) := by
  constructor
  · rintro ⟨fuel, s', hpass, hin⟩ n
    by_contra hfit
    obtain ⟨x, hx, hout⟩ := not_inLog_of_overflow hcb hread hpos h32 hfit hpass
    exact hout (hin x hx)
  · intro hfit
    obtain ⟨fuel, s', hpass, reads, hs', hin⟩ := readPass_reads hcb hread hpos hfit
    refine ⟨fuel, s', ?_, by rwa [hs']⟩
    rw [retainedBytes, ← hholds.map_byteAt, hkept]
    exact hpass

/-- On the first lap, and on a later one before the end of the first sector, the section is
readable, and what a pass delivers are the addresses that hold data. -/
theorem readable_configAt (hT : T ≤ logSpace ∨ position T < 0x10000) :
    ∃ dataStart front, configAt T = sectionAt (position T) dataStart front ∧
      Readable (position T) dataStart dataStart ∧
      unread (position T) dataStart dataStart = keptAddrs T := by
  obtain ⟨hstart, hsecond, hend⟩ := addresses
  have hpos := position_le T
  rcases lap_cases T with hfirst | ⟨hlater, hlow⟩ | ⟨hlater, hhigh⟩
  · refine ⟨_, _, configAt_first hfirst, ⟨hpos, .inl ⟨le_rfl, le_rfl, Nat.le_add_right _ _⟩⟩, ?_⟩
    have hupper : ¬ Upper (position T) logStartAddr logStartAddr := fun h ↦
      absurd h.1 (Nat.not_lt.2 (Nat.le_add_right _ _))
    rw [unread_of_not_upper hupper, Nat.add_sub_cancel_left, keptAddrs_of (.inl hfirst)]
  · have hlt : position T < 0x10000 := hT.resolve_left (Nat.not_le.2 hlater)
    have hupper : Upper (position T) secondSectorAddr secondSectorAddr := ⟨by omega, le_rfl⟩
    refine ⟨_, _, configAt_low hlater hlow, ⟨hpos, .inr ⟨by omega, .inl ⟨le_rfl, by omega⟩⟩⟩, ?_⟩
    rw [unread_of_upper hupper, keptAddrs_low hlater hlow]
    rfl
  · omega

/-- At the end of the first sector of a later lap the log is full and reads as empty. -/
theorem not_readsBack_full (hT : logSpace < T) (hp : position T = 0x10000)
    {h : List (Access UInt8)}
    (hkept : (retainedFrom fs.getFlashSector [] h).map Prod.fst = keptAddrs T) :
    ¬ ReadsBack fs cb chunks (configAt T, f, h) := by
  rintro ⟨fuel, s', hpass, -⟩
  have hbytes : retainedBytes fs h = [] := by
    obtain - | fuel := fuel
    · cases hpass
    · have hdone : (rewindRead (configAt T)).curReadAddr = (configAt T).dataEndAddr := by
        rw [configAt_low hT hp.le, hp]
        rfl
      rw [readPass, persistenceRead_done _ _ _ hdone] at hpass
      exact (Prod.ext_iff.1 (Option.some.inj hpass)).1.symm
  have hlength : (retainedBytes fs h).length = (keptAddrs T).length := by
    rw [← hkept, retainedBytes, List.length_map, List.length_map]
  rw [hbytes, keptAddrs_low hT hp.le, List.length_append, List.length_range'] at hlength
  rw [List.length_nil] at hlength
  omega

/-- Once the second sector has been erased, the first read of a pass starts outside the log. -/
theorem not_readsBack_high (hcb : FlashCallbacks fs cb view) (hT : logSpace < T)
    (hp : 0x10000 < position T) {h : List (Access UInt8)} :
    ¬ ReadsBack fs cb chunks (configAt T, f, h) := by
  obtain ⟨hstart, hsecond, hend⟩ := addresses
  have hlog : logSpace = 0x2FFFF := rfl
  have hpos := position_le T
  rintro ⟨fuel, s', hpass, hin⟩
  obtain - | fuel := fuel
  · cases hpass
  obtain ⟨c, hc⟩ : ∃ c, rewindRead (configAt T) = c := ⟨_, rfl⟩
  rw [hc] at hpass
  rw [configAt_high hT hp, rewindRead_sectionAt] at hc
  have hcur : c.curReadAddr = secondSectorAddr + 0x20000 := hc ▸ rfl
  have hdata : c.dataStartAddr = secondSectorAddr + 0x20000 := hc ▸ rfl
  have hwrite : c.dataEndAddr = logStartAddr + position T := hc ▸ rfl
  have hlast : c.endAddr = logEndAddr := hc ▸ rfl
  obtain ⟨n, next, heq⟩ := persistenceRead_behind cb.record c (f, []) (chunks 0)
    (by omega) (by omega) (by omega) (by omega)
  rw [← hc, readChunk_eq hcb.record_read_ok, hc] at heq
  have hret : (persistenceRead cb.record c (f, []) (chunks 0)).ret = true := by rw [heq]
  obtain ⟨rest, hrest⟩ := of_readPass_succ hpass hret
  have hpre := readPass_prefix hrest
  rw [heq] at hpre
  have hmem := (hin _ (hpre.subset (List.mem_append_right _ (List.mem_singleton_self _)))).2
  omega

/-- **When the log can be read back.** After writes of up to 64 KiB to a blank log, a read pass with
positive chunk lengths delivers exactly the bytes that have not been erased, from inside the log, if
and only if the log is on its first lap or short of the end of the first sector of a later one, and
no sum of a read position and a chunk length wraps around. -/
theorem readsBack_iff (hcb : FlashCallbacks fs cb view)
    (hblank : ∀ a, logStartAddr ≤ a → a < logEndAddr → (view f).Blank a)
    {buffers : List (List UInt8)} (hlen : ∀ b ∈ buffers, b.length ≤ 0x10000)
    (hpos : ∀ k, 0 < chunks k) (h32 : ∀ k, chunks k < 2 ^ 32) :
    ReadsBack fs cb chunks
        (writeAll cb.record fs.getFlashSectorSize (initialConfig, f, []) buffers) ↔
      (buffers.flatten.length ≤ logSpace ∨ position buffers.flatten.length < 0x10000) ∧
        ChunksFit cb chunks
          (writeAll cb.record fs.getFlashSectorSize (initialConfig, f, []) buffers) := by
  obtain ⟨f', h', hstate, hsound, hkept⟩ := writeAll_sound (f := f) (T := 0) (h := []) fs
    hcb.write_ok hlen trivial rfl
  rw [Nat.zero_add] at hstate hkept
  -- the device has followed the record, so it holds what the record leaves
  obtain ⟨h'', hfollows⟩ := writeAll_follows hcb.calls.record
    fs.getFlashSectorSize (configAt 0, f, []) buffers
  rw [hstate] at hfollows
  obtain ⟨hrec, hdev⟩ := follows_recorded hfollows
  obtain rfl : h' = h'' := hrec
  have hholds := (Holds.of_blank fun a ha ↦ hblank a ha.1 ha.2).follows view hsound hdev
  rw [← configAt_zero, hstate]
  by_cases hT : buffers.flatten.length ≤ logSpace ∨ position buffers.flatten.length < 0x10000
  · rw [and_iff_right hT]
    obtain ⟨dataStart, front, hconfig, hread, hunread⟩ := readable_configAt hT
    rw [hconfig]
    exact readsBack_of_readable hcb hpos h32 hread hholds (hkept.trans hunread.symm)
  · refine iff_of_false ?_ fun h ↦ hT h.1
    obtain ⟨hlater, hp⟩ := not_or.1 hT
    rcases (Nat.not_lt.1 hp).eq_or_lt with heq | hlt
    · exact not_readsBack_full (Nat.not_le.1 hlater) heq.symm hkept
    · exact not_readsBack_high hcb (Nat.not_le.1 hlater) hlt

theorem readsBack_three_bytes :
    ReadsBack boardSectors (norCallbacks boardSectors) (fun _ ↦ 2)
      (writeAll (norCallbacks boardSectors).record boardSectors.getFlashSectorSize
        (initialConfig, blankMemory, []) [[1, 2], [3]]) := by
  have hcb := flashCallbacks_norCallbacks boardSectors
  refine (readsBack_iff (f := blankMemory) hcb (fun _ _ _ ↦ rfl) (by decide) (fun _ ↦ two_pos)
    (fun _ ↦ by decide)).2 ⟨.inl (by decide), fun n ↦ ?_⟩
  -- the log is at its first bytes, so a pass starts at its first address
  obtain ⟨f', h', hstate, -, -⟩ := writeAll_sound (f := blankMemory) (T := 0) (h := [])
    boardSectors hcb.write_ok (by decide : ∀ b ∈ [[1, 2], [(3 : UInt8)]], b.length ≤ 0x10000)
    trivial rfl
  rw [← configAt_zero, hstate]
  exact noOverflow_of_le hcb ⟨by decide, .inl ⟨le_rfl, le_rfl, by decide⟩⟩ (fun _ ↦ two_pos)
    (fun _ ↦ by decide) [] n

/-- Four writes of 64 KiB: the fourth erases the second sector, and a pass starts behind it. -/
theorem not_readsBack_four_writes :
    (∀ b ∈ List.replicate 4 (List.replicate 0x10000 (1 : UInt8)), b.length ≤ 0x10000) ∧
      ¬ ReadsBack boardSectors (norCallbacks boardSectors) (fun _ ↦ 1)
        (writeAll (norCallbacks boardSectors).record boardSectors.getFlashSectorSize
          (initialConfig, blankMemory, [])
          (List.replicate 4 (List.replicate 0x10000 1))) := by
  have hlength : (List.replicate 0x10000 (1 : UInt8)).length = 0x10000 := List.length_replicate
  generalize List.replicate 0x10000 (1 : UInt8) = b at hlength ⊢
  have hlen : ∀ c ∈ List.replicate 4 b, c.length ≤ 0x10000 := fun c hc ↦
    (List.mem_replicate.1 hc).2 ▸ hlength.le
  have htotal : (List.replicate 4 b).flatten.length = 0x40000 := by
    rw [List.length_flatten, List.map_replicate, List.sum_replicate, hlength]
    rfl
  have hcb := flashCallbacks_norCallbacks boardSectors
  obtain ⟨f', h', hstate, -, -⟩ := writeAll_sound (f := blankMemory) (T := 0) (h := [])
    boardSectors hcb.write_ok hlen trivial rfl
  rw [Nat.zero_add, htotal] at hstate
  rw [← configAt_zero, hstate]
  exact ⟨hlen, not_readsBack_high hcb (by decide) (by decide)⟩

end Mblue
