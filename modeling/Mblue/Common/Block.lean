import Mathlib

/-!
# Copies into and out of a block

`memcpy` on a block of bytes; a copy that leaves the block is `none`.
-/

namespace Mblue

/-- `memcpy` into a block. -/
def copyIn (block : List UInt8) (offset : ℕ) (src : List UInt8) : Option (List UInt8) :=
  if offset + src.length ≤ block.length then
    some (block.take offset ++ src ++ block.drop (offset + src.length))
  else none

/-- `memcpy` out of a block. -/
def copyOut (block : List UInt8) (offset n : ℕ) : Option (List UInt8) :=
  if offset + n ≤ block.length then some ((block.drop offset).take n) else none

end Mblue
