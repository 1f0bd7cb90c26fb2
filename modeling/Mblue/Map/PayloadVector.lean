import Mathlib

/-!
# Payload vectors

`mblue_map.c` on the 32-bit target, in the release build. A `struct mblue_payload *` is a word whose
two low bits say what it is: a payload in memory, an integer, a pointer. A vector is a payload with a
length and a pointer to a block of such words, its entries. The block has one entry more than the
length, which holds `GUARD_MAGIC`.

A pointer to an entry is a block and a position in it; to read or write outside the block is a fault,
and so is to take a word for a payload that is not one. What is freed is recorded.
-/

namespace Mblue

/-! ### Words -/

/-- `GUARD_VECTOR_LEN`. -/
def guardVectorLen : ℕ := 32

/-- `GUARD_MAGIC`. -/
def guardMagic : UInt32 := 0x45454545

namespace PayloadWord

/-- `PAYLOAD_P`. -/
def payloadP (x : UInt32) : Bool := x &&& 3 == 0

/-- `INTEGER_P`. -/
def integerP (x : UInt32) : Bool := x &&& 3 == 1

/-- `POINTER_STATIC`. -/
def pointerStatic (x : UInt32) : Bool := x &&& 3 == 2

/-- `POINTER_DYNAMIC`. -/
def pointerDynamic (x : UInt32) : Bool := x &&& 3 == 3

/-- `POINTER_P`. -/
def pointerP (x : UInt32) : Bool := pointerStatic x || pointerDynamic x

/-- `GET_INTEGER`. -/
def getInteger (x : UInt32) : UInt32 := x >>> 2

/-- `MAKE_INTEGER`. -/
def makeInteger (x : UInt32) : UInt32 := x <<< 2 ||| 1

/-- `GET_POINTER`. -/
def getPointer (x : UInt32) : UInt32 := x &&& 0xFFFFFFFC

/-- `MAKE_POINTER`. -/
def makePointer (x : UInt32) : UInt32 := x ||| 2

end PayloadWord

/-! ### Memory -/

/-- `struct mblue_payload **`: an entry of a block. -/
structure EntryPtr where
  block : ℕ
  index : ℕ
  deriving DecidableEq, Repr

/-- `struct mblue_payload`. -/
inductive MbluePayload
  | pair (car cdr : UInt32)
  | byte (length elts : UInt32)
  | vector (length : UInt32) (elts : EntryPtr)
  deriving DecidableEq, Repr

/-- The payloads and the blocks of entries in memory. -/
structure PayloadMemory where
  payloads : UInt32 → Option MbluePayload
  entries : ℕ → Option (List UInt32)

/-- `struct mblue_payload_vector_iter`. -/
structure VectorIter where
  mp : UInt32
  pos : EntryPtr
  deriving DecidableEq, Repr

/-- What is passed to `mblue_free`. -/
inductive FreedPayload
  | payload (p : UInt32)
  | entries (ptr : EntryPtr)
  deriving DecidableEq, Repr

/-- What stops a function. -/
inductive PayloadFault
  /-- An access to an entry outside its block. -/
  | outsideEntries
  /-- An access outside the destination. -/
  | outsideDestination
  /-- A word is followed that does not point to a payload of the type expected. -/
  | noPayload
  /-- The fuel is used up. -/
  | noFuel
  deriving DecidableEq, Repr

namespace PayloadMemory

/-- Read an entry. -/
def load (m : PayloadMemory) (ptr : EntryPtr) : Except PayloadFault UInt32 :=
  match (m.entries ptr.block).bind (·[ptr.index]?) with
  | some word => .ok word
  | none => .error .outsideEntries

/-- Write an entry. -/
def store (m : PayloadMemory) (ptr : EntryPtr) (word : UInt32) :
    Except PayloadFault PayloadMemory :=
  match m.entries ptr.block with
  | none => .error .outsideEntries
  | some block =>
    if ptr.index < block.length then
      .ok { m with entries := Function.update m.entries ptr.block (block.set ptr.index word) }
    else .error .outsideEntries

/-- `value.pv_vector` of a payload. -/
def vectorAt (m : PayloadMemory) (p : UInt32) : Except PayloadFault (UInt32 × EntryPtr) :=
  match m.payloads p with
  | some (.vector length elts) => .ok (length, elts)
  | _ => .error .noPayload

/-- `mblue_payload_vector_alloc`, given what `mblue_malloc` returns for the payload and for the
entries; `none` is the null pointer. -/
def payloadVectorAlloc (m : PayloadMemory) (p : Option UInt32) (q : Option ℕ) (size : UInt32) :
    Except PayloadFault (Option (UInt32 × PayloadMemory)) :=
  match p, q with
  | some p, some q => do
    let slots := ((size + 1) * 4).toNat / 4
    let m := { m with entries := Function.update m.entries q (some (List.replicate slots 0)) }
    let ptr : EntryPtr := ⟨q, size.toNat⟩
    let m ← m.store ptr guardMagic
    let payload := MbluePayload.vector size ptr
    pure (some (p, { m with payloads := Function.update m.payloads p (some payload) }))
  | _, _ => .ok none

/-- `mblue_payload_vector_iter_init`. -/
def iterInit (m : PayloadMemory) (mp : UInt32) : Except PayloadFault VectorIter := do
  let (_, elts) ← m.vectorAt mp
  pure ⟨mp, elts⟩

/-- `mblue_payload_vector_iter_next`. -/
def iterNext (m : PayloadMemory) (iter : VectorIter) : Except PayloadFault (ℤ × VectorIter) := do
  let pos : EntryPtr := { iter.pos with index := iter.pos.index + 1 }
  let (length, elts) ← m.vectorAt iter.mp
  if UInt32.ofNat pos.index - UInt32.ofNat elts.index < length then
    let word ← m.load pos
    pure (if word ≠ guardMagic then 0 else -1, { iter with pos })
  else pure (-1, { iter with pos })

/-- `mblue_payload_vector_put`. -/
def vectorPut (m : PayloadMemory) (iter : VectorIter) (value : UInt32) :
    Except PayloadFault PayloadMemory :=
  m.store iter.pos value

/-- `mblue_payload_vector_get`; `none` is the error code. -/
def vectorGet (m : PayloadMemory) (iter : VectorIter) : Except PayloadFault (Option UInt32) := do
  let word ← m.load iter.pos
  pure (if word = 0 then none else some word)

/-- Put values through an iterator: `put` and `iter_next` in turn. -/
def fill (m : PayloadMemory) (iter : VectorIter) : List UInt32 → Except PayloadFault PayloadMemory
  | [] => .ok m
  | value :: values => do
    let m ← m.vectorPut iter value
    let (_, iter) ← m.iterNext iter
    m.fill iter values

/-- The loop over the items of `mblue_payload_vector_release`; `release` is the call for an item that
is a vector. -/
def releaseItems (m : PayloadMemory) (release : UInt32 → Except PayloadFault (List FreedPayload)) :
    ℕ → EntryPtr → Except PayloadFault (List FreedPayload)
  | 0, _ => .ok []
  | n + 1, mp => do
    let p ← m.load mp
    let item ← if PayloadWord.payloadP p then
        match m.payloads p with
        | some (.byte _ _) => .ok [.payload p]
        | some (.vector _ _) => release p
        | some (.pair _ _) => .ok []
        | none => .error .noPayload
      else .ok []
    let items ← m.releaseItems release n { mp with index := mp.index + 1 }
    pure (item ++ items)

/-- `mblue_payload_vector_release`: what is freed, in order. -/
def vectorRelease (m : PayloadMemory) : ℕ → UInt32 → Except PayloadFault (List FreedPayload)
  | 0, _ => .error .noFuel
  | fuel + 1, p => do
    let (length, elts) ← m.vectorAt p
    let items ← m.releaseItems (m.vectorRelease fuel) length.toNat elts
    pure (items ++ [.entries elts, .payload p])

/-- Write a word of the destination. -/
def storeDest (dest : List UInt32) (p : ℕ) (word : UInt32) : Except PayloadFault (List UInt32) :=
  if p < dest.length then .ok (dest.set p word) else .error .outsideDestination

/-- What `mblue_payload_parse_vector` does with an item: the destination and the next position. -/
def parseItem (m : PayloadMemory) (q : UInt32) (dest : List UInt32) (p : ℕ) :
    Except PayloadFault (List UInt32 × ℕ) :=
  if PayloadWord.integerP q then do
    let dest ← storeDest dest p (PayloadWord.getInteger q)
    pure (dest, p + 1)
  else if PayloadWord.pointerP q then do
    let dest ← storeDest dest p (PayloadWord.getPointer q)
    pure (dest, p + 1)
  else
    match m.payloads q with
    | some (.byte length elts) => do
      -- `struct mblue_byte_bundler` is the length and the pointer
      let dest ← storeDest dest (p + 1) elts
      let dest ← storeDest dest p length
      pure (dest, p + 2)
    | some _ => .ok (dest, p)
    | none => .error .noPayload

/-- The loop of `mblue_payload_parse_vector`. -/
def parseLoop (m : PayloadMemory) :
    ℕ → VectorIter → List UInt32 → ℕ → Except PayloadFault (ℤ × List UInt32)
  | 0, _, _, _ => .error .noFuel
  | fuel + 1, iter, dest, p =>
    match dest[p]? with
    | none => .error .outsideDestination
    | some cell =>
      if cell = guardMagic then .ok (0, dest)
      else do
        match ← m.vectorGet iter with
        | none => .ok (-1, dest)
        | some q =>
          let (dest, p) ← m.parseItem q dest p
          let (ret, iter) ← m.iterNext iter
          if ret = 0 then m.parseLoop fuel iter dest p else .ok (0, dest)

/-- `mblue_payload_parse_vector`: what it returns, and the destination. -/
def parseVector (m : PayloadMemory) (fuel : ℕ) (pvVector : UInt32) (dest : List UInt32) :
    Except PayloadFault (ℤ × List UInt32) := do
  let iter ← m.iterInit pvVector
  m.parseLoop fuel iter dest 0

end PayloadMemory

end Mblue
