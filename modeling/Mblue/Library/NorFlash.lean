import Mathlib

/-!
# Histories of accesses to a flash memory

A flash memory is programmed cell by cell and erased a whole sector at a time. What it still holds
can be read off the history of accesses alone: `retainedFrom` keeps the programmed cells in the
order in which they were programmed and drops those of a sector that is erased.

A device is seen through its `Cells`: the byte at every address and the addresses that are blank.
`Accessed` says what one access does to them. It promises that programming a blank cell stores the
byte and nothing about a cell that is not blank, so a memory in which programming can only clear
bits obeys it (`Programmed.accessed`, `Erased.accessed`).

## What is proved here

* `eachFrom_append`, `retainedFrom_append` — histories compose.
* `Holds.accessed`, `Holds.follows` — a device on which only blank cells are programmed stores
  exactly the retained cells, and every other cell of the area is blank.
-/

namespace NorFlash

variable {σ β S : Type*} [DecidableEq σ]

/-! ### Accesses and what they leave -/

/-- One access to the memory. -/
inductive Access (β : Type*)
  | program (addr : ℕ) (data : List β)
  | erase (addr : ℕ)
  | read (addr len : ℕ)

/-- A run of data with the addresses it is stored at. -/
def cells : ℕ → List β → List (ℕ × β)
  | _, [] => []
  | a, b :: bs => (a, b) :: cells (a + 1) bs

@[simp] theorem map_fst_cells (a : ℕ) (bs : List β) :
    (cells a bs).map Prod.fst = List.range' a bs.length := by
  induction bs generalizing a with
  | nil => rfl
  | cons b bs ih => rw [cells, List.map_cons, ih, List.length_cons, List.range'_succ]

@[simp] theorem map_snd_cells (a : ℕ) (bs : List β) : (cells a bs).map Prod.snd = bs := by
  induction bs generalizing a with
  | nil => rfl
  | cons b bs ih => rw [cells, List.map_cons, ih]

theorem mem_cells_iff {a : ℕ} {bs : List β} {c : ℕ × β} :
    c ∈ cells a bs ↔ a ≤ c.1 ∧ bs[c.1 - a]? = some c.2 := by
  induction bs generalizing a with
  | nil => simp [cells]
  | cons b bs ih =>
    rw [cells, List.mem_cons, ih]
    constructor
    · rintro (rfl | ⟨hle, hget⟩)
      · simp
      · have hsub : c.1 - a = c.1 - (a + 1) + 1 := by omega
        exact ⟨by omega, by rw [hsub, List.getElem?_cons_succ]; exact hget⟩
    · rintro ⟨hle, hget⟩
      rcases hle.eq_or_lt with rfl | hlt
      · rw [Nat.sub_self, List.getElem?_cons_zero, Option.some.injEq] at hget
        exact .inl (Prod.ext rfl hget.symm)
      · have hsub : c.1 - a = c.1 - (a + 1) + 1 := by omega
        rw [hsub, List.getElem?_cons_succ] at hget
        exact .inr ⟨hlt, hget⟩

theorem fst_mem_range' {a : ℕ} {bs : List β} {c : ℕ × β} (h : c ∈ cells a bs) :
    c.1 ∈ List.range' a bs.length :=
  map_fst_cells a bs ▸ List.mem_map_of_mem h

theorem snd_mem {a : ℕ} {bs : List β} {c : ℕ × β} (h : c ∈ cells a bs) : c.2 ∈ bs := by
  have hmem := List.mem_map_of_mem (f := Prod.snd) h
  rwa [map_snd_cells] at hmem

/-- What is kept after one more access, the oldest cell first. -/
def Access.retain (sector : ℕ → σ) (kept : List (ℕ × β)) : Access β → List (ℕ × β)
  | program addr data => kept ++ cells addr data
  | erase addr => kept.filter fun c ↦ sector c.1 ≠ sector addr
  | read _ _ => kept

/-- What is kept after a history of accesses. -/
def retainedFrom (sector : ℕ → σ) (kept : List (ℕ × β)) (h : List (Access β)) : List (ℕ × β) :=
  h.foldl (Access.retain sector) kept

/-- An access programs only addresses of an area at which nothing is kept. -/
def Access.Sound (area : Set ℕ) (kept : List (ℕ × β)) : Access β → Prop
  | program addr data => ∀ a ∈ List.range' addr data.length, a ∈ area ∧ a ∉ kept.map Prod.fst
  | erase _ => True
  | read _ _ => True

/-- `P` holds of every access of a history together with what is kept just before it. -/
def EachFrom (sector : ℕ → σ) (P : List (ℕ × β) → Access β → Prop) :
    List (ℕ × β) → List (Access β) → Prop
  | _, [] => True
  | kept, x :: h => P kept x ∧ EachFrom sector P (x.retain sector kept) h

variable {sector : ℕ → σ} {P Q : List (ℕ × β) → Access β → Prop} {kept : List (ℕ × β)}

@[simp] theorem retainedFrom_nil : retainedFrom sector kept [] = kept := rfl

@[simp] theorem retainedFrom_cons (x : Access β) (h : List (Access β)) :
    retainedFrom sector kept (x :: h) = retainedFrom sector (x.retain sector kept) h := rfl

@[simp] theorem retainedFrom_append (h₁ h₂ : List (Access β)) :
    retainedFrom sector kept (h₁ ++ h₂) =
      retainedFrom sector (retainedFrom sector kept h₁) h₂ :=
  List.foldl_append

@[simp] theorem eachFrom_nil : EachFrom sector P kept [] := trivial

@[simp] theorem eachFrom_cons (x : Access β) (h : List (Access β)) :
    EachFrom sector P kept (x :: h) ↔ P kept x ∧ EachFrom sector P (x.retain sector kept) h :=
  Iff.rfl

@[simp] theorem eachFrom_append (h₁ h₂ : List (Access β)) :
    EachFrom sector P kept (h₁ ++ h₂) ↔
      EachFrom sector P kept h₁ ∧ EachFrom sector P (retainedFrom sector kept h₁) h₂ := by
  induction h₁ generalizing kept with
  | nil => simp
  | cons x h₁ ih => rw [List.cons_append, eachFrom_cons, ih, eachFrom_cons, retainedFrom_cons,
      and_assoc]

theorem EachFrom.imp (hPQ : ∀ kept x, P kept x → Q kept x) {h : List (Access β)}
    (hP : EachFrom sector P kept h) : EachFrom sector Q kept h := by
  induction h generalizing kept with
  | nil => trivial
  | cons x h ih => exact ⟨hPQ _ _ hP.1, ih hP.2⟩

/-- The addresses kept after an erase are those of the other sectors. -/
theorem map_fst_retain_erase (addr : ℕ) :
    ((Access.erase addr : Access β).retain sector kept).map Prod.fst =
      (kept.map Prod.fst).filter fun a ↦ sector a ≠ sector addr := by
  rw [List.filter_map]
  rfl

/-- Erasing a sector drops its addresses from the front of a list and leaves the others. -/
theorem filter_ne_append {addr : ℕ} {xs ys : List ℕ} (hx : ∀ a ∈ xs, sector a = sector addr)
    (hy : ∀ a ∈ ys, sector a ≠ sector addr) :
    (xs ++ ys).filter (fun a ↦ sector a ≠ sector addr) = ys := by
  have hnil : xs.filter (fun a ↦ sector a ≠ sector addr) = [] :=
    List.filter_eq_nil_iff.2 fun a ha ↦ by simpa using hx a ha
  have hself : ys.filter (fun a ↦ sector a ≠ sector addr) = ys :=
    List.filter_eq_self.2 fun a ha ↦ decide_eq_true (hy a ha)
  rw [List.filter_append, hnil, hself, List.nil_append]

/-! ### Devices -/

/-- How a device is seen. -/
structure Cells (β : Type*) where
  /-- The byte at an address. -/
  byteAt : ℕ → β
  /-- The addresses at which a byte can be programmed. -/
  Blank : ℕ → Prop

/-- A cell that an access leaves alone. -/
def Cells.SameAt (m m' : Cells β) (a : ℕ) : Prop :=
  m'.byteAt a = m.byteAt a ∧ (m.Blank a → m'.Blank a)

/-- What one access does to the cells of a device. -/
def Accessed (sector : ℕ → σ) (m : Cells β) : Access β → Cells β → Prop
  | .program addr data, m' =>
    (∀ c ∈ cells addr data, m.Blank c.1 → m'.byteAt c.1 = c.2) ∧
      ∀ a ∉ List.range' addr data.length, m.SameAt m' a
  | .erase addr, m' =>
    (∀ a, sector a = sector addr → m'.Blank a) ∧ ∀ a, sector a ≠ sector addr → m.SameAt m' a
  | .read _ _, m' => ∀ a, m.SameAt m' a

/-- A history of accesses that leads from one state to another, where `R` says what one access
does. -/
inductive Follows (R : S → Access β → S → Prop) : S → List (Access β) → S → Prop
  | nil (s : S) : Follows R s [] s
  | cons {s t u : S} {x : Access β} {h : List (Access β)} (hx : R s x t) (hh : Follows R t h u) :
      Follows R s (x :: h) u

namespace Follows

variable {R R' : S → Access β → S → Prop} {s t u : S} {x : Access β} {h₁ h₂ : List (Access β)}

theorem single (hx : R s x t) : Follows R s [x] t := .cons hx (.nil t)

theorem imp (hRR : ∀ s x t, R s x t → R' s x t) (hs : Follows R s h₁ t) : Follows R' s h₁ t := by
  induction hs with
  | nil => exact .nil _
  | cons hx _ ih => exact .cons (hRR _ _ _ hx) ih

/-- What every access of a history leaves alone, the history leaves alone. -/
theorem frame {V : Type*} {v : S → V} {P : Access β → Prop}
    (hstep : ∀ s x t, P x → R s x t → v t = v s) (hs : Follows R s h₁ t) (hP : ∀ x ∈ h₁, P x) :
    v t = v s := by
  induction hs with
  | nil => rfl
  | cons hx _ ih =>
    exact (ih fun y hy ↦ hP y (List.mem_cons_of_mem _ hy)).trans
      (hstep _ _ _ (hP _ List.mem_cons_self) hx)

theorem append (hs : Follows R s h₁ t) (ht : Follows R t h₂ u) : Follows R s (h₁ ++ h₂) u := by
  induction hs with
  | nil => exact ht
  | cons hx _ ih => exact .cons hx (ih ht)

end Follows

/-- The device stores what is kept, and the rest of an area is blank. -/
structure Holds (area : Set ℕ) (m : Cells β) (kept : List (ℕ × β)) : Prop where
  stored : ∀ c ∈ kept, m.byteAt c.1 = c.2
  blank : ∀ a ∈ area, a ∉ kept.map Prod.fst → m.Blank a

variable {area : Set ℕ} {m m' : Cells β}

/-- **One sound access keeps the device and the retained cells together.** -/
theorem Holds.accessed {x : Access β} (hm : Holds area m kept) (hx : x.Sound area kept)
    (hacc : Accessed sector m x m') : Holds area m' (x.retain sector kept) := by
  cases x with
  | program addr data =>
    obtain ⟨hnew, hold⟩ := hacc
    refine ⟨fun c hc ↦ ?_, fun a ha hna ↦ ?_⟩
    · rcases List.mem_append.1 hc with hc | hc
      · have hout : c.1 ∉ List.range' addr data.length := fun hmem ↦
          (hx _ hmem).2 (List.mem_map_of_mem hc)
        rw [(hold _ hout).1]
        exact hm.stored c hc
      · obtain ⟨hin, hblank⟩ := hx _ (fst_mem_range' hc)
        exact hnew c hc (hm.blank _ hin hblank)
    · rw [Access.retain, List.map_append, map_fst_cells, List.mem_append, not_or] at hna
      exact (hold a hna.2).2 (hm.blank a ha hna.1)
  | erase addr =>
    obtain ⟨hsec, hold⟩ := hacc
    refine ⟨fun c hc ↦ ?_, fun a ha hna ↦ ?_⟩
    · obtain ⟨hc, hne⟩ := List.mem_filter.1 hc
      rw [(hold _ (of_decide_eq_true hne)).1]
      exact hm.stored c hc
    · by_cases hs : sector a = sector addr
      · exact hsec a hs
      · refine (hold a hs).2 (hm.blank a ha fun hmem ↦ hna ?_)
        rw [map_fst_retain_erase, List.mem_filter]
        exact ⟨hmem, decide_eq_true hs⟩
  | read addr len =>
    exact ⟨fun c hc ↦ (hacc c.1).1.trans (hm.stored c hc),
      fun a ha hna ↦ (hacc a).2 (hm.blank a ha hna)⟩

/-- **A history of sound accesses leaves on the device exactly what it retains.** -/
theorem Holds.follows (view : S → Cells β) {s t : S} {h : List (Access β)}
    (hs : Holds area (view s) kept) (hh : EachFrom sector (fun k x ↦ x.Sound area k) kept h)
    (hf : Follows (fun a x b ↦ Accessed sector (view a) x (view b)) s h t) :
    Holds area (view t) (retainedFrom sector kept h) := by
  induction hf generalizing kept with
  | nil => exact hs
  | cons hx _ ih => exact ih (hs.accessed hh.1 hx) hh.2

/-- A memory that is all blank retains nothing. -/
theorem Holds.of_blank (h : ∀ a ∈ area, m.Blank a) : Holds area m [] :=
  ⟨fun _ hc ↦ absurd hc List.not_mem_nil, fun a ha _ ↦ h a ha⟩

/-- The bytes a device stores are the data of the cells. -/
theorem Holds.map_byteAt (h : Holds area m kept) :
    (kept.map Prod.fst).map m.byteAt = kept.map Prod.snd := by
  rw [List.map_map]
  exact List.map_congr_left h.stored

/-! ### Memories in which programming clears bits -/

/-- A memory of bytes in which the blank cells are those with all bits set. -/
def norCells (byteAt : ℕ → UInt8) : Cells UInt8 := ⟨byteAt, fun a ↦ byteAt a = 0xFF⟩

/-- Programming clears the bits that are clear in the data, and no other. -/
structure Programmed (byteAt byteAt' : ℕ → UInt8) (addr : ℕ) (data : List UInt8) : Prop where
  inside : ∀ c ∈ cells addr data, byteAt' c.1 = byteAt c.1 &&& c.2
  outside : ∀ a ∉ List.range' addr data.length, byteAt' a = byteAt a

/-- Erasing sets the bits of one sector. -/
structure Erased (sector : ℕ → σ) (byteAt byteAt' : ℕ → UInt8) (addr : ℕ) : Prop where
  inside : ∀ a, sector a = sector addr → byteAt' a = 0xFF
  outside : ∀ a, sector a ≠ sector addr → byteAt' a = byteAt a

theorem allOnes_and (b : UInt8) : 0xFF &&& b = b := UInt8.neg_one_and

theorem sameAt_norCells {byteAt byteAt' : ℕ → UInt8} {a : ℕ} (h : byteAt' a = byteAt a) :
    (norCells byteAt).SameAt (norCells byteAt') a :=
  ⟨h, fun hb ↦ h.trans hb⟩

/-- A memory with data programmed into it. -/
def program (byteAt : ℕ → UInt8) (addr : ℕ) (data : List UInt8) (a : ℕ) : UInt8 :=
  ((if addr ≤ a then data[a - addr]? else none).map (byteAt a &&& ·)).getD (byteAt a)

theorem programmed_program (byteAt : ℕ → UInt8) (addr : ℕ) (data : List UInt8) :
    Programmed byteAt (program byteAt addr data) addr data where
  inside c hc := by
    obtain ⟨hle, hget⟩ := mem_cells_iff.1 hc
    rw [program, if_pos hle, hget]
    rfl
  outside a ha := by
    have hnone : (if addr ≤ a then data[a - addr]? else none) = none := by
      split
      · next hle =>
        rw [List.mem_range'_1] at ha
        exact List.getElem?_eq_none (by omega)
      · rfl
    rw [program, hnone]
    rfl

variable {τ : Type*} {sec : ℕ → τ}

/-- A memory with one sector erased. -/
def eraseSector [DecidableEq τ] (sec : ℕ → τ) (byteAt : ℕ → UInt8) (addr a : ℕ) : UInt8 :=
  if sec a = sec addr then 0xFF else byteAt a

theorem erased_eraseSector [DecidableEq τ] (byteAt : ℕ → UInt8) (addr : ℕ) :
    Erased sec byteAt (eraseSector sec byteAt addr) addr :=
  ⟨fun _ h ↦ if_pos h, fun _ h ↦ if_neg h⟩

theorem Programmed.accessed {byteAt byteAt' : ℕ → UInt8} {addr : ℕ} {data : List UInt8}
    (h : Programmed byteAt byteAt' addr data) :
    Accessed sec (norCells byteAt) (.program addr data) (norCells byteAt') := by
  refine ⟨fun c hc hblank ↦ ?_, fun a ha ↦ sameAt_norCells (h.outside a ha)⟩
  have hff : byteAt c.1 = 0xFF := hblank
  rw [show (norCells byteAt').byteAt c.1 = byteAt' c.1 from rfl, h.inside c hc, hff, allOnes_and]

theorem Erased.accessed {byteAt byteAt' : ℕ → UInt8} {addr : ℕ}
    (h : Erased sec byteAt byteAt' addr) :
    Accessed sec (norCells byteAt) (.erase addr : Access UInt8) (norCells byteAt') :=
  ⟨h.inside, fun a ha ↦ sameAt_norCells (h.outside a ha)⟩

/-! ### Data stored at an address -/

/-- A memory holds a run of bytes at an address. -/
def StoredAt (byteAt : ℕ → UInt8) (addr : ℕ) (data : List UInt8) : Prop :=
  ∀ c ∈ cells addr data, byteAt c.1 = c.2

/-- A memory is blank over a range of addresses. -/
def BlankAt (byteAt : ℕ → UInt8) (addr len : ℕ) : Prop :=
  ∀ a ∈ List.range' addr len, byteAt a = 0xFF

variable {byteAt byteAt' : ℕ → UInt8} {addr addr' len : ℕ} {data data' : List UInt8}

theorem cells_append (addr : ℕ) (data data' : List β) :
    cells addr (data ++ data') = cells addr data ++ cells (addr + data.length) data' := by
  induction data generalizing addr with
  | nil => rfl
  | cons b data ih =>
    rw [List.cons_append, cells, ih, cells, List.cons_append, List.length_cons, Nat.add_assoc,
      Nat.add_comm 1]

theorem storedAt_append : StoredAt byteAt addr (data ++ data') ↔
    StoredAt byteAt addr data ∧ StoredAt byteAt (addr + data.length) data' := by
  unfold StoredAt
  rw [cells_append, List.forall_mem_append]

theorem StoredAt.byteAt_eq (h : StoredAt byteAt addr data) {k : ℕ} {b : UInt8}
    (hk : data[k]? = some b) : byteAt (addr + k) = b :=
  h (addr + k, b) (mem_cells_iff.2 ⟨Nat.le_add_right _ _, by rwa [Nat.add_sub_cancel_left]⟩)

/-- Reading stored bytes. -/
theorem StoredAt.map_range' (h : StoredAt byteAt addr data) :
    (List.range' addr data.length).map byteAt = data := by
  rw [← map_fst_cells, List.map_map]
  exact (List.map_congr_left h).trans (map_snd_cells addr data)

theorem StoredAt.congr (h : StoredAt byteAt addr data)
    (heq : ∀ a ∈ List.range' addr data.length, byteAt' a = byteAt a) :
    StoredAt byteAt' addr data := fun c hc ↦ (heq _ (fst_mem_range' hc)).trans (h c hc)

theorem BlankAt.congr (h : BlankAt byteAt addr len)
    (heq : ∀ a ∈ List.range' addr len, byteAt' a = byteAt a) : BlankAt byteAt' addr len :=
  fun a ha ↦ (heq a ha).trans (h a ha)

namespace Programmed

/-- What is programmed somewhere else does not matter. -/
theorem storedAt_of_disjoint (hp : Programmed byteAt byteAt' addr data)
    (hdisj : addr' + data'.length ≤ addr ∨ addr + data.length ≤ addr')
    (h : StoredAt byteAt addr' data') : StoredAt byteAt' addr' data' :=
  h.congr fun a ha ↦ hp.outside a fun hmem ↦ by
    rw [List.mem_range'_1] at ha hmem
    omega

theorem blankAt_of_disjoint (hp : Programmed byteAt byteAt' addr data)
    (hdisj : addr' + len ≤ addr ∨ addr + data.length ≤ addr') (h : BlankAt byteAt addr' len) :
    BlankAt byteAt' addr' len :=
  h.congr fun a ha ↦ hp.outside a fun hmem ↦ by
    rw [List.mem_range'_1] at ha hmem
    omega

/-- Blank cells take the data. -/
theorem storedAt_of_blankAt (hp : Programmed byteAt byteAt' addr data)
    (h : BlankAt byteAt addr data.length) : StoredAt byteAt' addr data := fun c hc ↦ by
  rw [hp.inside c hc, h _ (fst_mem_range' hc), allOnes_and]

/-- Data that are programmed once more stay as they are. -/
theorem storedAt_self {pre post : List UInt8}
    (hp : Programmed byteAt byteAt' addr (pre ++ (data ++ post)))
    (h : StoredAt byteAt (addr + pre.length) data) : StoredAt byteAt' (addr + pre.length) data := by
  intro c hc
  have hmem : c ∈ cells addr (pre ++ (data ++ post)) := by
    rw [cells_append, cells_append]
    exact List.mem_append_right _ (List.mem_append_left _ hc)
  rw [hp.inside c hmem, h c hc, UInt8.and_self]

/-- No bit is set by programming. -/
theorem exists_and (hp : Programmed byteAt byteAt' addr data) (a : ℕ) :
    ∃ b, byteAt' a = byteAt a &&& b := by
  by_cases ha : a ∈ List.range' addr data.length
  · rw [← map_fst_cells, List.mem_map] at ha
    obtain ⟨c, hc, rfl⟩ := ha
    exact ⟨c.2, hp.inside c hc⟩
  · exact ⟨0xFF, by rw [hp.outside a ha, UInt8.and_comm, allOnes_and]⟩

/-- Zeros stay, whatever is programmed. -/
theorem storedAt_zero (hp : Programmed byteAt byteAt' addr data)
    (h : StoredAt byteAt addr' (List.replicate len 0)) :
    StoredAt byteAt' addr' (List.replicate len 0) := fun c hc ↦ by
  have hzero : c.2 = 0 := List.eq_of_mem_replicate (snd_mem hc)
  obtain ⟨b, hb⟩ := hp.exists_and c.1
  rw [hb, h c hc, hzero, UInt8.zero_and]

/-- Zeros that are programmed are stored, whatever was there. -/
theorem storedAt_replicate_zero (hp : Programmed byteAt byteAt' addr (List.replicate len 0)) :
    StoredAt byteAt' addr (List.replicate len 0) := fun c hc ↦ by
  have hzero : c.2 = 0 := List.eq_of_mem_replicate (snd_mem hc)
  rw [hp.inside c hc, hzero, UInt8.and_zero]

end Programmed

end NorFlash
