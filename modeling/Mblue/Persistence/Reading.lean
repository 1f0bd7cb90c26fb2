import Mblue.Persistence.Frontier

/-!
# Reading the log back

A read pass of `persistence_read` over a section in one of the two shapes in which it can be read:
the valid data lies in one piece, or it starts behind the write position and goes on from
`start_addr`. `unread` lists the addresses that the pass has still to deliver; every read takes some
from its front (`persistenceRead_step`), so the pass ends and has delivered all of them
(`readPass_reads`).

The sum `cur_read_addr + len` wraps around for a chunk length close to `2 ^ 32`. Such a read takes
the whole length at once, from wherever the pass has got to (`persistenceRead_overflow`).
-/

namespace Mblue

open NorFlash

variable {F : Type} {cb : Callbacks F} {f : F} {p dataStart front r len : ℕ}

/-- A section of the log with its read position at `r`. -/
def readingAt (p dataStart front r : ℕ) : DataSectionInfo :=
  { sectionAt p dataStart front with curReadAddr := r }

theorem rewindRead_sectionAt :
    rewindRead (sectionAt p dataStart front) = readingAt p dataStart front dataStart := rfl

/-- The read position is in the piece behind `data_start_addr` that precedes the one at the start
of the log. -/
def Upper (p dataStart r : ℕ) : Prop := logStartAddr + p < dataStart ∧ dataStart ≤ r

instance instDecidableUpper (p dataStart r : ℕ) : Decidable (Upper p dataStart r) :=
  inferInstanceAs (Decidable (logStartAddr + p < dataStart ∧ dataStart ≤ r))

/-- What is left to read from `r` on. -/
def unread (p dataStart r : ℕ) : List ℕ :=
  if Upper p dataStart r then List.range' r (logEndAddr - r) ++ List.range' logStartAddr p
  else List.range' r (logStartAddr + p - r)

/-- The positions of a read pass. -/
def Readable (p dataStart r : ℕ) : Prop :=
  p ≤ logSpace ∧
    ((logStartAddr ≤ dataStart ∧ dataStart ≤ r ∧ r ≤ logStartAddr + p) ∨
      (logStartAddr + p < dataStart ∧
        ((dataStart ≤ r ∧ r ≤ logEndAddr) ∨ (logStartAddr ≤ r ∧ r ≤ logStartAddr + p))))

/-- The number of reads that the rest of a pass can take. -/
def readsLeft (p dataStart r : ℕ) : ℕ :=
  if Upper p dataStart r then logEndAddr - r + 1 + p else logStartAddr + p - r

/-- What one read of a pass does: it takes the next `n` bytes and moves to `r'`. -/
structure ReadStep (cb : Callbacks F) (f : F) (p dataStart front r r' n : ℕ)
    (res : ReadResult F) : Prop where
  ret : res.ret = true
  config : res.config = readingAt p dataStart front r'
  unread_eq : unread p dataStart r = List.range' r n ++ unread p dataStart r'
  start_le : logStartAddr ≤ r
  le_end : r + n ≤ logEndAddr
  readable : Readable p dataStart r'
  lt : readsLeft p dataStart r' < readsLeft p dataStart r
  read : (res.bytes = (cb.readCb f r n).2.1 ∧ res.device = (cb.readCb f r n).2.2) ∨
    (n = 0 ∧ res.bytes = [] ∧ res.device = f)

theorem unread_of_not_upper (h : ¬ Upper p dataStart r) :
    unread p dataStart r = List.range' r (logStartAddr + p - r) := if_neg h

theorem readsLeft_of_not_upper (h : ¬ Upper p dataStart r) :
    readsLeft p dataStart r = logStartAddr + p - r := if_neg h

theorem unread_of_upper (h : Upper p dataStart r) :
    unread p dataStart r = List.range' r (logEndAddr - r) ++ List.range' logStartAddr p := if_pos h

theorem readsLeft_of_upper (h : Upper p dataStart r) :
    readsLeft p dataStart r = logEndAddr - r + 1 + p := if_pos h

/-- A successful call of `read_cb`. -/
theorem readChunk_eq (hr : ∀ f addr len, (cb.readCb f addr len).1 ≠ 0) (size next : ℕ) :
    readChunk cb (readingAt p dataStart front r) f size next =
      ⟨true, (cb.readCb f r size).2.1, readingAt p dataStart front next,
        (cb.readCb f r size).2.2⟩ := by
  have hok : (cb.readCb f (readingAt p dataStart front r).curReadAddr size).1 ≠ 0 := hr _ _ _
  rw [readChunk, if_pos hok, decide_eq_true hok]
  rfl

/-- A read in the piece that ends at the write position. -/
theorem readToDataEnd_step (hr : ∀ f addr len, (cb.readCb f addr len).1 ≠ 0)
    (hpos : logStartAddr ≤ r) (hlt : r < logStartAddr + p) (hp : p ≤ logSpace)
    (hstay : ∀ q, r ≤ q → q ≤ logStartAddr + p → ¬ Upper p dataStart q ∧ Readable p dataStart q)
    (hlen : 0 < len) (h32 : r + len < 2 ^ 32) :
    ∃ r' n, ReadStep cb f p dataStart front r r' n
      (readToDataEnd cb (readingAt p dataStart front r) f len) := by
  obtain ⟨hstart, -, hend⟩ := addresses
  have hlog : logSpace = 0x2FFFF := rfl
  have hupper := (hstay r le_rfl hlt.le).1
  have hadd : add32 (readingAt p dataStart front r).curReadAddr len = r + len := add32_of_lt h32
  rw [readToDataEnd, hadd]
  by_cases hle : r + len ≤ logStartAddr + p
  · have hnext := hstay (r + len) (Nat.le_add_right _ _) hle
    rw [if_pos (show r + len ≤ (readingAt p dataStart front r).dataEndAddr from hle),
      readChunk_eq hr]
    refine ⟨r + len, len, rfl, rfl, ?_, hpos, by omega, hnext.2, ?_, .inl ⟨rfl, rfl⟩⟩
    · rw [unread_of_not_upper hupper, unread_of_not_upper hnext.1, List.range'_append_1]
      congr 1
      omega
    · rw [readsLeft_of_not_upper hupper, readsLeft_of_not_upper hnext.1]
      omega
  · have hnext := hstay (logStartAddr + p) hlt.le le_rfl
    have hsub : sub32 (readingAt p dataStart front r).dataEndAddr
        (readingAt p dataStart front r).curReadAddr = logStartAddr + p - r :=
      sub32_of_le hlt.le (show logStartAddr + p < 2 ^ 32 by omega)
    rw [if_neg (show ¬ r + len ≤ (readingAt p dataStart front r).dataEndAddr from hle), hsub,
      readChunk_eq hr]
    refine ⟨logStartAddr + p, logStartAddr + p - r, rfl, rfl, ?_, hpos, by omega, hnext.2, ?_,
      .inl ⟨rfl, rfl⟩⟩
    · rw [unread_of_not_upper hupper, unread_of_not_upper hnext.1, Nat.sub_self, List.range'_zero,
        List.append_nil]
    · rw [readsLeft_of_not_upper hupper, readsLeft_of_not_upper hnext.1]
      omega

/-- A read in the piece that ends at `end_addr`. -/
theorem readToEnd_step (hr : ∀ f addr len, (cb.readCb f addr len).1 ≠ 0) (hp : p ≤ logSpace)
    (hdata : logStartAddr + p < dataStart) (hlow : dataStart ≤ r) (hle : r ≤ logEndAddr)
    (hlen : 0 < len) (h32 : r + len < 2 ^ 32) :
    ∃ r' n, ReadStep cb f p dataStart front r r' n
      (readToEnd cb (readingAt p dataStart front r) f len) := by
  obtain ⟨hstart, -, hend⟩ := addresses
  have hupper : Upper p dataStart r := ⟨hdata, hlow⟩
  have hadd : add32 (readingAt p dataStart front r).curReadAddr len = r + len := add32_of_lt h32
  -- back at the start of the log, the rest is the piece up to the write position
  have hback : ¬ Upper p dataStart logStartAddr := fun h ↦ by
    have := h.2
    omega
  have hread : Readable p dataStart logStartAddr := ⟨hp, .inr ⟨hdata, .inr ⟨le_rfl, by omega⟩⟩⟩
  rw [readToEnd, hadd]
  by_cases hin : r + len ≤ logEndAddr
  · have hupper' : Upper p dataStart (r + len) := ⟨hdata, by omega⟩
    rw [if_pos (show r + len ≤ (readingAt p dataStart front r).endAddr from hin), readChunk_eq hr]
    refine ⟨r + len, len, rfl, rfl, ?_, by omega, hin,
      ⟨hp, .inr ⟨hdata, .inl ⟨by omega, hin⟩⟩⟩, ?_, .inl ⟨rfl, rfl⟩⟩
    · rw [unread_of_upper hupper, unread_of_upper hupper', ← List.append_assoc,
        List.range'_append_1]
      congr 2
      omega
    · rw [readsLeft_of_upper hupper, readsLeft_of_upper hupper']
      omega
  · rw [if_neg (show ¬ r + len ≤ (readingAt p dataStart front r).endAddr from hin)]
    by_cases heq : logEndAddr = r
    · rw [if_pos (show (readingAt p dataStart front r).endAddr =
        (readingAt p dataStart front r).curReadAddr from heq)]
      refine ⟨logStartAddr, 0, rfl, rfl, ?_, by omega, by omega, hread, ?_, .inr ⟨rfl, rfl, rfl⟩⟩
      · rw [unread_of_upper hupper, unread_of_not_upper hback, heq, Nat.sub_self,
          Nat.add_sub_cancel_left]
      · rw [readsLeft_of_upper hupper, readsLeft_of_not_upper hback]
        omega
    · have hsub : sub32 (readingAt p dataStart front r).endAddr
          (readingAt p dataStart front r).curReadAddr = logEndAddr - r :=
        sub32_of_le hle (show logEndAddr < 2 ^ 32 by omega)
      rw [if_neg (show ¬ (readingAt p dataStart front r).endAddr =
        (readingAt p dataStart front r).curReadAddr from heq), hsub, readChunk_eq hr]
      refine ⟨logStartAddr, logEndAddr - r, rfl, rfl, ?_, by omega, by omega, hread, ?_,
        .inl ⟨rfl, rfl⟩⟩
      · rw [unread_of_upper hupper, unread_of_not_upper hback, Nat.add_sub_cancel_left]
      · rw [readsLeft_of_upper hupper, readsLeft_of_not_upper hback]
        omega

/-- **One read of a pass.** -/
theorem persistenceRead_step (f : F) (front : ℕ)
    (hr : ∀ f addr len, (cb.readCb f addr len).1 ≠ 0)
    (hread : Readable p dataStart r) (hne : r ≠ logStartAddr + p) (hlen : 0 < len)
    (h32 : r + len < 2 ^ 32) :
    ∃ r' n, ReadStep cb f p dataStart front r r' n
      (persistenceRead cb (readingAt p dataStart front r) f len) := by
  obtain ⟨hp, hpos⟩ := hread
  have hne' : ¬ (readingAt p dataStart front r).curReadAddr =
      (readingAt p dataStart front r).dataEndAddr := hne
  rw [persistenceRead, if_neg hne']
  rcases hpos with ⟨hstart, hlow, hle⟩ | ⟨hdata, hpos⟩
  · -- the data lies in one piece
    rw [if_pos (show (readingAt p dataStart front r).dataStartAddr <
      (readingAt p dataStart front r).dataEndAddr from hlow.trans_lt (lt_of_le_of_ne hle hne))]
    refine readToDataEnd_step hr (hstart.trans hlow) (lt_of_le_of_ne hle hne) hp
      (fun q hrq hq ↦ ⟨fun h ↦ ?_, hp, .inl ⟨hstart, hlow.trans hrq, hq⟩⟩) hlen h32
    have := h.1
    omega
  · rw [if_neg (show ¬ (readingAt p dataStart front r).dataStartAddr <
      (readingAt p dataStart front r).dataEndAddr from Nat.not_lt.2 hdata.le)]
    rcases hpos with ⟨hlow, hle⟩ | ⟨hlow, hle⟩
    · rw [if_pos (show (readingAt p dataStart front r).dataStartAddr ≤
        (readingAt p dataStart front r).curReadAddr from hlow)]
      exact readToEnd_step hr hp hdata hlow hle hlen h32
    · rw [if_neg (show ¬ (readingAt p dataStart front r).dataStartAddr ≤
        (readingAt p dataStart front r).curReadAddr from Nat.not_le.2 (hle.trans_lt hdata))]
      refine readToDataEnd_step hr hlow (lt_of_le_of_ne hle hne) hp
        (fun q hrq hq ↦ ⟨fun h ↦ ?_, hp, .inr ⟨hdata, .inr ⟨hlow.trans hrq, hq⟩⟩⟩) hlen h32
      have := h.2
      omega

/-! ### Whole passes -/

theorem FlashCallbacks.record_read_ok {fs : FlashSectors} {view : F → Cells UInt8}
    (hcb : FlashCallbacks fs cb view) (s : F × List (Access UInt8)) (addr len : ℕ) :
    (cb.record.readCb s addr len).1 ≠ 0 := hcb.read_ok s.1 addr len

/-- In the first `n` reads of a pass no sum of a read position and a chunk length exceeds 32 bits,
unless the pass is over. -/
def NoOverflow (cb : Callbacks F) : ℕ → (ℕ → ℕ) → DataSectionInfo → F → Prop
  | 0, _, _, _ => True
  | n + 1, chunks, c, f =>
    (c.curReadAddr ≠ c.dataEndAddr → c.curReadAddr + chunks 0 < 2 ^ 32) ∧
      let r := persistenceRead cb c f (chunks 0)
      NoOverflow cb n (fun k ↦ chunks (k + 1)) r.config r.device

/-- A range passed to `read_cb` lies inside the log. -/
def InLog : Access UInt8 → Prop
  | .read addr len => logStartAddr ≤ addr ∧ addr + len ≤ logEndAddr
  | .program _ _ => True
  | .erase _ => True

theorem persistenceRead_done (c : DataSectionInfo) (f : F) (len : ℕ)
    (h : c.curReadAddr = c.dataEndAddr) :
    persistenceRead cb c f len = ⟨false, [], c, f⟩ := if_pos h

/-- Behind its end nothing is asked of a pass. -/
theorem noOverflow_done {c : DataSectionInfo} (h : c.curReadAddr = c.dataEndAddr) :
    ∀ (n : ℕ) (chunks : ℕ → ℕ) (f : F), NoOverflow cb n chunks c f := by
  intro n
  induction n with
  | zero => exact fun _ _ ↦ trivial
  | succ n ih =>
    intro chunks f
    refine ⟨fun hne ↦ absurd h hne, ?_⟩
    rw [persistenceRead_done c f (chunks 0) h]
    exact ih _ _

theorem unread_done : unread p dataStart (logStartAddr + p) = [] := by
  have hupper : ¬ Upper p dataStart (logStartAddr + p) := fun h ↦ absurd h.2 (Nat.not_le.2 h.1)
  rw [unread_of_not_upper hupper, Nat.sub_self, List.range'_zero]

variable {fs : FlashSectors} {view : F → Cells UInt8} {chunks : ℕ → ℕ}

/-- What a read of a pass leaves on a recorded device. -/
theorem ReadStep.recorded (hcb : FlashCallbacks fs cb view) {h : List (Access UInt8)} {r' n : ℕ}
    {res : ReadResult (F × List (Access UInt8))}
    (hstep : ReadStep cb.record (f, h) p dataStart front r r' n res) :
    ∃ f' reads, res.device = (f', h ++ reads) ∧
      res.bytes = (List.range' r n).map (view f).byteAt ∧ (view f').byteAt = (view f).byteAt ∧
      ∀ x ∈ reads, InLog x := by
  rcases hstep.read with ⟨hb, hd⟩ | ⟨rfl, hb, hd⟩
  · refine ⟨_, [.read r n], hd, hb.trans (hcb.read_bytes f r n),
      funext fun a ↦ (hcb.calls.readCb f r n a).1, fun x hx ↦ ?_⟩
    rw [List.mem_singleton.1 hx]
    exact ⟨hstep.start_le, hstep.le_end⟩
  · exact ⟨f, [], hd.trans (by rw [List.append_nil]), hb, rfl, fun x hx ↦ absurd hx List.not_mem_nil⟩

theorem readPass_succ {fuel : ℕ} {c : DataSectionInfo}
    (h : (persistenceRead cb c f (chunks 0)).ret = true) :
    readPass cb (fuel + 1) chunks c f =
      (readPass cb fuel (fun k ↦ chunks (k + 1)) (persistenceRead cb c f (chunks 0)).config
        (persistenceRead cb c f (chunks 0)).device).map fun q ↦
          ((persistenceRead cb c f (chunks 0)).bytes ++ q.1, q.2) := if_pos h

theorem of_readPass_succ {fuel : ℕ} {c : DataSectionInfo} {out : List UInt8} {f' : F}
    (h : readPass cb (fuel + 1) chunks c f = some (out, f'))
    (hret : (persistenceRead cb c f (chunks 0)).ret = true) :
    ∃ rest, readPass cb fuel (fun k ↦ chunks (k + 1)) (persistenceRead cb c f (chunks 0)).config
        (persistenceRead cb c f (chunks 0)).device = some (rest, f') := by
  rw [readPass_succ hret] at h
  obtain ⟨q, hq, heq⟩ := Option.map_eq_some_iff.1 h
  obtain ⟨-, hf⟩ := Prod.ext_iff.1 heq
  exact ⟨q.1, hq.trans (congrArg some (Prod.ext rfl hf))⟩

theorem readPass_stop {fuel : ℕ} {c : DataSectionInfo}
    (h : ¬ (persistenceRead cb c f (chunks 0)).ret = true) :
    readPass cb (fuel + 1) chunks c f = some ([], (persistenceRead cb c f (chunks 0)).device) :=
  if_neg h

/-- **A pass delivers everything that is unread**, from inside the log, and ends. -/
theorem readPass_reads (hcb : FlashCallbacks fs cb view) (hread : Readable p dataStart r)
    (hpos : ∀ k, 0 < chunks k) {h : List (Access UInt8)}
    (hfit : ∀ n, NoOverflow cb.record n chunks (readingAt p dataStart front r) (f, h)) :
    ∃ fuel s', readPass cb.record fuel chunks (readingAt p dataStart front r) (f, h) =
        some ((unread p dataStart r).map (view f).byteAt, s') ∧
      ∃ reads, s'.2 = h ++ reads ∧ ∀ x ∈ reads, InLog x := by
  induction hn : readsLeft p dataStart r using Nat.strong_induction_on
    generalizing r f h chunks with
  | _ n ih =>
    by_cases hdone : r = logStartAddr + p
    · subst hdone
      refine ⟨1, (f, h), ?_, [], (List.append_nil _).symm,
        fun x hx ↦ absurd hx List.not_mem_nil⟩
      rw [readPass, persistenceRead_done _ _ _ rfl, unread_done]
      rfl
    · obtain ⟨r', m, hstep⟩ := persistenceRead_step (f, h) front
        hcb.record_read_ok hread hdone (hpos 0) ((hfit 1).1 hdone)
      obtain ⟨f', reads, hdev, hbytes, hsame, hin⟩ := hstep.recorded hcb
      have hfit' : ∀ k, NoOverflow cb.record k (fun j ↦ chunks (j + 1))
          (readingAt p dataStart front r') (f', h ++ reads) := fun k ↦ by
        rw [← hdev, ← hstep.config]
        exact (hfit (k + 1)).2
      obtain ⟨fuel, s', hpass, reads', hs', hin'⟩ := ih _ (hn ▸ hstep.lt) hstep.readable
        (fun k ↦ hpos (k + 1)) hfit' rfl
      refine ⟨fuel + 1, s', ?_, reads ++ reads', by rw [hs', List.append_assoc], fun x hx ↦ ?_⟩
      · rw [readPass_succ hstep.ret, hstep.config, hdev, hpass, hbytes, hstep.unread_eq,
          List.map_append, hsame]
        rfl
      · rcases List.mem_append.1 hx with hx | hx
        · exact hin x hx
        · exact hin' x hx

/-- A read calls `read_cb` at most once. -/
theorem persistenceRead_device (cb : Callbacks F) (c : DataSectionInfo) (f : F) (len : ℕ) :
    (persistenceRead cb c f len).device = f ∨
      ∃ addr n, (persistenceRead cb c f len).device = (cb.readCb f addr n).2.2 := by
  rw [persistenceRead]
  split
  · exact .inl rfl
  · have hto : ∀ c : DataSectionInfo, (readToDataEnd cb c f len).device = f ∨
        ∃ addr n, (readToDataEnd cb c f len).device = (cb.readCb f addr n).2.2 := fun c ↦ by
      rw [readToDataEnd]
      split <;> exact .inr ⟨_, _, rfl⟩
    split
    · exact hto c
    · split
      · rw [readToEnd]
        split
        · exact .inr ⟨_, _, rfl⟩
        · split
          · exact .inl rfl
          · exact .inr ⟨_, _, rfl⟩
      · exact hto c

theorem prefix_persistenceRead (cb : Callbacks F) (c : DataSectionInfo)
    (s : F × List (Access UInt8)) (len : ℕ) :
    s.2 <+: (persistenceRead cb.record c s len).device.2 := by
  rcases persistenceRead_device cb.record c s len with h | ⟨addr, n, h⟩
  · rw [h]
  · rw [h]
    exact List.prefix_append _ _

/-- The record of a pass goes on from what it was. -/
theorem readPass_prefix {fuel : ℕ} {c : DataSectionInfo} {s s' : F × List (Access UInt8)}
    {out : List UInt8} (h : readPass cb.record fuel chunks c s = some (out, s')) :
    s.2 <+: s'.2 := by
  induction fuel generalizing chunks c s out with
  | zero => cases h
  | succ fuel ih =>
    have hread := prefix_persistenceRead cb c s (chunks 0)
    by_cases hret : (persistenceRead cb.record c s (chunks 0)).ret = true
    · obtain ⟨rest, hrest⟩ := of_readPass_succ h hret
      exact hread.trans (ih hrest)
    · rw [readPass_stop hret, Option.some.injEq] at h
      rw [← show _ = s' from (Prod.ext_iff.1 h).2]
      exact hread

/-- A sum that wraps around makes the read take its whole length at once. -/
theorem persistenceRead_overflow (cb : Callbacks F) (f : F) (front : ℕ)
    (hread : Readable p dataStart r) (hne : r ≠ logStartAddr + p)
    (hlen : len < 2 ^ 32) (h32 : 2 ^ 32 ≤ r + len) :
    persistenceRead cb (readingAt p dataStart front r) f len =
      readChunk cb (readingAt p dataStart front r) f len (r + len - 2 ^ 32) := by
  obtain ⟨hp, hpos⟩ := hread
  obtain ⟨hstart, -, hend⟩ := addresses
  have hlog : logSpace = 0x2FFFF := rfl
  have hr32 : r < 2 ^ 32 := by omega
  have hadd : add32 (readingAt p dataStart front r).curReadAddr len = r + len - 2 ^ 32 := by
    show (r + len) % 2 ^ 32 = _
    omega
  have hto : r ≤ logStartAddr + p → readToDataEnd cb (readingAt p dataStart front r) f len =
      readChunk cb (readingAt p dataStart front r) f len (r + len - 2 ^ 32) := fun hle ↦ by
    rw [readToDataEnd, hadd]
    exact if_pos (show r + len - 2 ^ 32 ≤ logStartAddr + p by omega)
  rw [persistenceRead, if_neg (show ¬ (readingAt p dataStart front r).curReadAddr =
    (readingAt p dataStart front r).dataEndAddr from hne)]
  rcases hpos with ⟨-, hlow, hle⟩ | ⟨hdata, ⟨hlow, hle⟩ | ⟨-, hle⟩⟩
  · rw [if_pos (show (readingAt p dataStart front r).dataStartAddr <
      (readingAt p dataStart front r).dataEndAddr from hlow.trans_lt (lt_of_le_of_ne hle hne))]
    exact hto hle
  · rw [if_neg (show ¬ (readingAt p dataStart front r).dataStartAddr <
      (readingAt p dataStart front r).dataEndAddr from Nat.not_lt.2 hdata.le),
      if_pos (show (readingAt p dataStart front r).dataStartAddr ≤
        (readingAt p dataStart front r).curReadAddr from hlow), readToEnd, hadd]
    exact if_pos (show r + len - 2 ^ 32 ≤ logEndAddr by omega)
  · rw [if_neg (show ¬ (readingAt p dataStart front r).dataStartAddr <
      (readingAt p dataStart front r).dataEndAddr from Nat.not_lt.2 hdata.le),
      if_neg (show ¬ (readingAt p dataStart front r).dataStartAddr ≤
        (readingAt p dataStart front r).curReadAddr from Nat.not_le.2 (hle.trans_lt hdata))]
    exact hto hle

/-- A read that starts behind the data and not at `end_addr` calls `read_cb` at its position. -/
theorem persistenceRead_behind (cb : Callbacks F) (c : DataSectionInfo) (f : F) (len : ℕ)
    (hne : ¬ c.curReadAddr = c.dataEndAddr)
    (hdata : ¬ c.dataStartAddr < c.dataEndAddr) (hlow : c.dataStartAddr ≤ c.curReadAddr)
    (hend : ¬ c.endAddr = c.curReadAddr) :
    ∃ n next, persistenceRead cb c f len = readChunk cb c f n next := by
  rw [persistenceRead, if_neg hne, if_neg hdata, if_pos hlow, readToEnd, if_neg hend]
  split <;> exact ⟨_, _, rfl⟩

/-- **A pass with a sum that wraps around reads outside the log.** -/
theorem not_inLog_of_overflow (hcb : FlashCallbacks fs cb view) (hread : Readable p dataStart r)
    (hpos : ∀ k, 0 < chunks k) (h32 : ∀ k, chunks k < 2 ^ 32) {n : ℕ} {h : List (Access UInt8)}
    (hfit : ¬ NoOverflow cb.record n chunks (readingAt p dataStart front r) (f, h)) {fuel : ℕ}
    {out : List UInt8} {s' : F × List (Access UInt8)}
    (hpass : readPass cb.record fuel chunks (readingAt p dataStart front r) (f, h) =
      some (out, s')) : ∃ x ∈ s'.2, ¬ InLog x := by
  induction n generalizing r f h chunks fuel out with
  | zero => exact absurd trivial hfit
  | succ n ih =>
    by_cases hdone : r = logStartAddr + p
    · subst hdone
      exact absurd (noOverflow_done rfl (n + 1) chunks _) hfit
    · obtain - | fuel := fuel
      · cases hpass
      by_cases hsum : r + chunks 0 < 2 ^ 32
      · obtain ⟨r', m, hstep⟩ := persistenceRead_step (f, h) front
          hcb.record_read_ok hread hdone (hpos 0) hsum
        obtain ⟨f', reads, hdev, -, -, -⟩ := hstep.recorded hcb
        obtain ⟨rest, hrest⟩ := of_readPass_succ hpass hstep.ret
        rw [hstep.config, hdev] at hrest
        have hfit' : ¬ NoOverflow cb.record n (fun k ↦ chunks (k + 1))
            (readingAt p dataStart front r') (f', h ++ reads) := fun hall ↦ by
          rw [← hdev, ← hstep.config] at hall
          exact hfit ⟨fun _ ↦ hsum, hall⟩
        exact ih hstep.readable (fun k ↦ hpos (k + 1)) (fun k ↦ h32 (k + 1)) hfit' hrest
      · have heq := persistenceRead_overflow cb.record (f, h) front hread hdone
           (h32 0) (Nat.not_lt.1 hsum)
        rw [readChunk_eq hcb.record_read_ok] at heq
        have hret : (persistenceRead cb.record (readingAt p dataStart front r) (f, h)
            (chunks 0)).ret = true := by rw [heq]
        obtain ⟨rest, hrest⟩ := of_readPass_succ hpass hret
        have hpre := readPass_prefix hrest
        rw [heq] at hpre
        refine ⟨.read r (chunks 0), hpre.subset (List.mem_append_right _ (List.mem_singleton_self _)),
          fun hin ↦ ?_⟩
        obtain ⟨-, -, hend⟩ := addresses
        have := hin.2
        omega

/-- No sum wraps around when every chunk length leaves room for the addresses of the log. -/
theorem noOverflow_of_le (hcb : FlashCallbacks fs cb view) (hread : Readable p dataStart r)
    (hpos : ∀ k, 0 < chunks k) (hroom : ∀ k, logEndAddr + chunks k < 2 ^ 32)
    (h : List (Access UInt8)) (n : ℕ) :
    NoOverflow cb.record n chunks (readingAt p dataStart front r) (f, h) := by
  induction n generalizing r f h chunks with
  | zero => trivial
  | succ n ih =>
    by_cases hdone : r = logStartAddr + p
    · subst hdone
      exact noOverflow_done rfl (n + 1) chunks _
    · have hle : r ≤ logEndAddr := by
        obtain ⟨hstart, -, hend⟩ := addresses
        have hlog : logSpace = 0x2FFFF := rfl
        obtain ⟨hp, ⟨-, -, h⟩ | ⟨-, ⟨-, h⟩ | ⟨-, h⟩⟩⟩ := hread
        all_goals omega
      have hsum : r + chunks 0 < 2 ^ 32 := (Nat.add_le_add_right hle _).trans_lt (hroom 0)
      obtain ⟨r', m, hstep⟩ := persistenceRead_step (f, h) front
        hcb.record_read_ok hread hdone (hpos 0) hsum
      obtain ⟨f', reads, hdev, -, -, -⟩ := hstep.recorded hcb
      have hrest := ih (f := f') hstep.readable (fun k ↦ hpos (k + 1)) (fun k ↦ hroom (k + 1))
        (h ++ reads)
      rw [← hdev, ← hstep.config] at hrest
      exact ⟨fun _ ↦ hsum, hrest⟩

end Mblue
