import Mathlib

/-!
# Bytes in a cyclic buffer

A list of cells that is written and read round its end. `overwrite` is a block copy into the cells,
`writeRound` and `readRound` are copies that are split where the cells end. `Holds cells start stored`
says that the list `stored` lies in the cells from position `start` on, counted modulo their number.
What a queue does with the cells keeps this: to write behind what is stored, to read from its front,
to give up its front.
-/

namespace CyclicBuffer

variable {α : Type*} {cells stored src : List α} {start offset n : ℕ}

/-! ### Block copies -/

/-- Copy a block over the cells from `offset` on. -/
def overwrite (cells : List α) (offset : ℕ) (src : List α) : List α :=
  cells.take offset ++ src ++ cells.drop (offset + src.length)

@[simp] theorem length_overwrite (h : offset + src.length ≤ cells.length) :
    (overwrite cells offset src).length = cells.length := by
  simp [overwrite]
  omega

theorem getElem?_overwrite (h : offset + src.length ≤ cells.length) (p : ℕ) :
    (overwrite cells offset src)[p]? =
      if offset ≤ p ∧ p < offset + src.length then src[p - offset]? else cells[p]? := by
  have hoffset : min offset cells.length = offset := by omega
  simp only [overwrite, List.append_assoc, List.getElem?_append, List.length_take, hoffset,
    List.getElem?_drop]
  split_ifs with hbefore hcovered hcovered hcovered
  · omega
  · rw [List.getElem?_take_of_lt hbefore]
  · rfl
  · omega
  · omega
  · congr 1
    omega

/-- Copy a block over the cells from `offset` on, the rest of it from the first cell on. -/
def writeRound (cells : List α) (offset : ℕ) (src : List α) : List α :=
  overwrite (overwrite cells offset (src.take (cells.length - offset))) 0
    (src.drop (cells.length - offset))

/-- Copy `n` cells out, from `offset` on, the rest from the first cell on. -/
def readRound (cells : List α) (offset n : ℕ) : List α :=
  (cells.drop offset).take n ++ cells.take (n - (cells.length - offset))

theorem length_writeRound (hoffset : offset ≤ cells.length) (hsrc : src.length ≤ cells.length) :
    (writeRound cells offset src).length = cells.length := by
  have hfirst : offset + (src.take (cells.length - offset)).length ≤ cells.length := by
    simp only [List.length_take]
    omega
  rw [writeRound, length_overwrite, length_overwrite hfirst]
  simp only [length_overwrite hfirst, List.length_drop]
  omega

/-- A cell at distance `j` from the offset holds the byte number `j` of the block, if there is one. -/
theorem getElem?_writeRound (hoffset : offset < cells.length) (hsrc : src.length ≤ cells.length)
    {j : ℕ} (hj : j < cells.length) :
    (writeRound cells offset src)[(offset + j) % cells.length]? =
      if j < src.length then src[j]? else cells[(offset + j) % cells.length]? := by
  have hfirst : offset + (src.take (cells.length - offset)).length ≤ cells.length := by
    simp only [List.length_take]
    omega
  have hsecond : 0 + (src.drop (cells.length - offset)).length ≤
      (overwrite cells offset (src.take (cells.length - offset))).length := by
    rw [length_overwrite hfirst, List.length_drop]
    omega
  rw [writeRound, getElem?_overwrite hsecond, getElem?_overwrite hfirst]
  simp only [List.length_take, List.length_drop, List.getElem?_take, List.getElem?_drop]
  -- whether the position lies behind the end of the cells
  obtain hround | hround := lt_or_ge (offset + j) cells.length
  · rw [Nat.mod_eq_of_lt hround]
    split_ifs <;> first | rfl | omega | (congr 1; omega)
  · have hmod : (offset + j) % cells.length = offset + j - cells.length := by
      rw [Nat.mod_eq_sub_mod hround, Nat.mod_eq_of_lt (by omega)]
    rw [hmod]
    split_ifs <;> first | rfl | omega | (congr 1; omega)

/-- The byte number `j` that is read is that of the cell at distance `j`. -/
theorem getElem?_readRound (hoffset : offset < cells.length) (hn : n ≤ cells.length) {j : ℕ}
    (hj : j < n) :
    (readRound cells offset n)[j]? = cells[(offset + j) % cells.length]? := by
  simp only [readRound, List.getElem?_append, List.length_take, List.length_drop,
    List.getElem?_take, List.getElem?_drop]
  obtain hround | hround := lt_or_ge (offset + j) cells.length
  · rw [Nat.mod_eq_of_lt hround]
    split_ifs <;> first | rfl | omega
  · have hmod : (offset + j) % cells.length = offset + j - cells.length := by
      rw [Nat.mod_eq_sub_mod hround, Nat.mod_eq_of_lt (by omega)]
    rw [hmod]
    split_ifs <;> first | rfl | omega | (congr 1; omega)

theorem length_readRound (hoffset : offset ≤ cells.length) (hn : n ≤ cells.length) :
    (readRound cells offset n).length = n := by
  simp only [readRound, List.length_append, List.length_take, List.length_drop]
  omega

/-! ### What is stored -/

/-- A list lies in the cells from a position on. -/
structure Holds (cells : List α) (start : ℕ) (stored : List α) : Prop where
  fits : stored.length ≤ cells.length
  cell : ∀ j < stored.length, cells[(start + j) % cells.length]? = stored[j]?

namespace Holds

theorem nil : Holds cells start [] :=
  ⟨Nat.zero_le _, fun _ hj ↦ absurd hj (Nat.not_lt_zero _)⟩

/-- **To write behind what is stored** appends to it. -/
theorem write (h : Holds cells start stored)
    (hroom : stored.length + src.length ≤ cells.length) :
    Holds (writeRound cells ((start + stored.length) % cells.length) src) start (stored ++ src) := by
  obtain hzero | hn := Nat.eq_zero_or_pos cells.length
  · obtain rfl : stored = [] := List.length_eq_zero_iff.1 (by omega)
    obtain rfl : src = [] := List.length_eq_zero_iff.1 (by omega)
    exact nil
  have hoffset : (start + stored.length) % cells.length < cells.length := Nat.mod_lt _ hn
  have hsrc : src.length ≤ cells.length := by omega
  have hlength := length_writeRound hoffset.le hsrc
  refine ⟨by rw [hlength, List.length_append]; exact hroom, fun j hj ↦ ?_⟩
  rw [List.length_append] at hj
  rw [hlength]
  obtain hold | hnew := lt_or_ge j stored.length
  · -- what is stored lies at the distances from `cells.length - stored.length` on
    have hpos : (start + j) % cells.length =
        ((start + stored.length) % cells.length + (cells.length - stored.length + j)) %
          cells.length := by
      rw [Nat.mod_add_mod, ← Nat.add_mod_right (start + j)]
      congr 1
      have := h.fits
      omega
    rw [hpos, getElem?_writeRound hoffset hsrc (by omega), if_neg (by omega), ← hpos,
      h.cell j hold, List.getElem?_append_left hold]
  · have hpos : (start + j) % cells.length =
        ((start + stored.length) % cells.length + (j - stored.length)) % cells.length := by
      rw [Nat.mod_add_mod]
      congr 1
      omega
    rw [hpos, getElem?_writeRound hoffset hsrc (by omega), if_pos (by omega),
      List.getElem?_append_right hnew]

/-- To write one cell behind what is stored appends to it. -/
theorem set (h : Holds cells start stored) (hroom : stored.length < cells.length) (a : α) :
    Holds (cells.set ((start + stored.length) % cells.length) a) start (stored ++ [a]) := by
  have hpos : 0 < cells.length := by omega
  refine ⟨by rw [List.length_set, List.length_append, List.length_singleton]; omega, fun j hj ↦ ?_⟩
  rw [List.length_append, List.length_singleton] at hj
  rw [List.length_set]
  obtain hold | rfl : j < stored.length ∨ j = stored.length := by omega
  · -- two of fewer than `cells.length` positions in a row are different
    have hne : (start + stored.length) % cells.length ≠ (start + j) % cells.length := fun heq ↦ by
      have hmod : stored.length ≡ j [MOD cells.length] := Nat.ModEq.add_left_cancel' start heq
      have hlt : j < cells.length := by omega
      exact absurd (hmod.eq_of_lt_of_lt hroom hlt) (by omega)
    rw [List.getElem?_set_ne hne, h.cell j hold, List.getElem?_append_left hold]
  · rw [List.getElem?_set_self (Nat.mod_lt _ hpos), List.getElem?_append_right le_rfl,
      Nat.sub_self]
    rfl

/-- The front of what is stored is stored. -/
theorem front {rest : List α} (h : Holds cells start (stored ++ rest)) :
    Holds cells start stored := by
  have hfits := h.fits
  rw [List.length_append] at hfits
  refine ⟨by omega, fun j hj ↦ ?_⟩
  rw [h.cell j (by rw [List.length_append]; omega), List.getElem?_append_left hj]

/-- **To read from the front** gives what was stored first. -/
theorem read (h : Holds cells start stored) (hcount : n ≤ stored.length) :
    readRound cells (start % cells.length) n = stored.take n := by
  obtain hzero | hn := Nat.eq_zero_or_pos cells.length
  · obtain rfl : n = 0 := by
      have := h.fits
      omega
    simp [readRound]
  have hoffset : start % cells.length < cells.length := Nat.mod_lt _ hn
  have hcells : n ≤ cells.length := hcount.trans h.fits
  refine List.ext_getElem? fun j ↦ ?_
  obtain hj | hj := lt_or_ge j n
  · rw [getElem?_readRound hoffset hcells hj, Nat.mod_add_mod, h.cell j (by omega),
      List.getElem?_take_of_lt hj]
  · rw [List.getElem?_eq_none (by rw [length_readRound hoffset.le hcells]; exact hj),
      List.getElem?_eq_none (by rw [List.length_take]; omega)]

/-- **To give up the front** leaves the rest. -/
theorem drop (h : Holds cells start stored) (n : ℕ) :
    Holds cells (start + n) (stored.drop n) := by
  refine ⟨by rw [List.length_drop]; exact (Nat.sub_le _ _).trans h.fits, fun j hj ↦ ?_⟩
  rw [List.length_drop] at hj
  rw [List.getElem?_drop, Nat.add_assoc, h.cell _ (by omega)]

/-- Only the position modulo the number of cells matters. -/
theorem of_mod_eq {start' : ℕ} (h : Holds cells start stored)
    (hmod : start' % cells.length = start % cells.length) : Holds cells start' stored := by
  refine ⟨h.fits, fun j hj ↦ ?_⟩
  rw [Nat.add_mod, hmod, ← Nat.add_mod]
  exact h.cell j hj

end Holds

end CyclicBuffer
