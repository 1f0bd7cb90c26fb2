import Mathlib
import Mblue.Common.SmartData

/-!
# Messages and the message pool

The messages of `mblue_message.h` and the manager of `mblue_message.c`: a static array of 32
messages, a list of the free ones with its count, the reference counting operations and the global
sequence counter.

`code` packs type, major and minor number into 32 bits as `init_message` does (`mkCode`), and is
taken apart by the macros `GET_TYPE`, `GET_MAJOR` and `GET_MINOR`; `getType_mkCode` and its
companions say that they agree for the values of the enumerations. The 16-bit counters `seq` and
`ref` are numbers with the wrap-around written where the code adds to them.

The union of `struct mblue_message` (`extra`, `ipc_return`, `pn`) is one pointer that is read back
under another name, so it is one field, `Aux`.

A message also carries a number that is no field of the struct: `draw` says which drawing of
`mblue_message_get_sequence`, counted from the start, its `seq` came from. It is history, written
next to `seq` and read by no operation; with it two messages that carry the same 16-bit number can
be told apart in a statement.
-/

namespace Mblue

/-- `MBLUE_MAX_MESSAGE_NUM`. -/
def mblueMaxMessageNum : ℕ := 32

/-- An element of `mblue_message_pool`. -/
abbrev MsgId := Fin mblueMaxMessageNum

instance instNeZeroMessageNum : NeZero mblueMaxMessageNum := ⟨by decide⟩

/-- `SEGMENT_MAJOR_MAX`. -/
def segmentMajorMax : ℕ := 7

/-- A value of `enum MESSAGE_MAJOR`. -/
abbrev Major := Fin segmentMajorMax

/-- `MBLUE_BUS`. -/
def mblueBus : Major := ⟨0, by decide⟩

/-- `MBLUE_LOG_SERVICE`. -/
def mblueLogService : Major := ⟨2, by decide⟩

/-- `uint16_t`. -/
abbrev Uint16 := Fin (2 ^ 16)

instance instNeZeroUint16 : NeZero (2 ^ 16 : ℕ) := ⟨by decide⟩

/-- `enum MESSAGE_TYPE`. -/
inductive MessageType
  | subscribe
  | signal
  | syncCall
  | asyncCall
  | callReturn
  deriving DecidableEq, Repr

namespace MessageType

/-- The enumerator's value. -/
def toNat : MessageType → ℕ
  | subscribe => 0
  | signal => 1
  | syncCall => 2
  | asyncCall => 3
  | callReturn => 4

/-- The enumerator with a value, if there is one. -/
def ofNat? : ℕ → Option MessageType
  | 0 => some subscribe
  | 1 => some signal
  | 2 => some syncCall
  | 3 => some asyncCall
  | 4 => some callReturn
  | _ => none

@[simp] theorem ofNat?_toNat (t : MessageType) : ofNat? t.toNat = some t := by cases t <;> rfl

/-- The two types of request. -/
def isCall : MessageType → Bool
  | syncCall | asyncCall => true
  | _ => false

end MessageType

/-! ### The packed code -/

/-- `type << TYPE_OFFSET | major << MAJOR_OFFSET | minor`. -/
def mkCode (type : MessageType) (major : Major) (minor : Uint16) : ℕ :=
  (type.toNat <<< 28) ||| (major.val <<< 16) ||| minor.val

/-- `GET_TYPE`. -/
def getType (code : ℕ) : Option MessageType := MessageType.ofNat? (code >>> 28)

/-- `GET_MAJOR`, when it is a segment's number. -/
def getMajor (code : ℕ) : Option Major :=
  if h : (code >>> 16) &&& 0xFFF < segmentMajorMax then some ⟨(code >>> 16) &&& 0xFFF, h⟩ else none

/-- `GET_MINOR`. -/
def getMinor (code : ℕ) : ℕ := code &&& 0xFFFF

/-- The packed fields do not overlap: the code is their weighted sum. -/
theorem mkCode_eq (type : MessageType) (major : Major) (minor : Uint16) :
    mkCode type major minor = type.toNat * 2 ^ 28 + (major.val * 2 ^ 16 + minor.val) := by
  have hminor : minor.val < 2 ^ 16 := minor.isLt
  have hmajor : major.val < 7 := major.isLt
  have hlow : (major.val <<< 16) ||| minor.val = major.val * 2 ^ 16 + minor.val := by
    rw [Nat.shiftLeft_eq, Nat.mul_comm, Nat.two_pow_add_eq_or_of_lt hminor]
  have hlt : major.val * 2 ^ 16 + minor.val < 2 ^ 28 := by omega
  unfold mkCode
  rw [Nat.lor_assoc, hlow, Nat.shiftLeft_eq, Nat.mul_comm type.toNat,
    Nat.two_pow_add_eq_or_of_lt hlt]

@[simp] theorem getType_mkCode (type : MessageType) (major : Major) (minor : Uint16) :
    getType (mkCode type major minor) = some type := by
  have hminor : minor.val < 2 ^ 16 := minor.isLt
  have hmajor : major.val < 7 := major.isLt
  have hshift : mkCode type major minor >>> 28 = type.toNat := by
    rw [mkCode_eq, Nat.shiftRight_eq_div_pow]
    omega
  rw [getType, hshift, MessageType.ofNat?_toNat]

@[simp] theorem getMajor_mkCode (type : MessageType) (major : Major) (minor : Uint16) :
    getMajor (mkCode type major minor) = some major := by
  have hminor : minor.val < 2 ^ 16 := minor.isLt
  have hmajor : major.val < 7 := major.isLt
  have hmask : (mkCode type major minor >>> 16) &&& 0xFFF = major.val := by
    rw [mkCode_eq, Nat.shiftRight_eq_div_pow,
      show 0xFFF = 2 ^ 12 - 1 from rfl, Nat.and_two_pow_sub_one_eq_mod]
    omega
  unfold getMajor
  simp only [hmask, major.isLt, ↓reduceDIte, Fin.eta]

@[simp] theorem getMinor_mkCode (type : MessageType) (major : Major) (minor : Uint16) :
    getMinor (mkCode type major minor) = minor.val := by
  have hminor : minor.val < 2 ^ 16 := minor.isLt
  rw [getMinor, mkCode_eq, show 0xFFFF = 2 ^ 16 - 1 from rfl, Nat.and_two_pow_sub_one_eq_mod]
  omega

/-! ### Messages -/

/-- The activation of `mblue_remote_call` whose local variable `out` a return cell is: activations
are numbered in the order they begin. -/
abbrev CellId := ℕ

/-- A `struct pending_notifier` on the heap, numbered in the order of allocation. -/
abbrev NotifierId := ℕ

/-- A `struct mblue_task *`: `NULL`, a task, or one of the constants of
`enum SYSTEM_MESSAGE_SOURCE` that are passed in its place. -/
inductive Source (ι : Type)
  | null
  | task (t : ι)
  | system (n : ℕ)
  deriving DecidableEq, Repr

/-- The union of `struct mblue_message`: `extra` of a subscription, `ipc_return` of a synchronous
call, `pn` of an asynchronous one, `NULL` otherwise. -/
inductive Aux (σ : Type)
  | null
  | extra (ms : σ)
  | ipcReturn (c : CellId)
  | pn (p : NotifierId)
  deriving DecidableEq, Repr

/-- `struct mblue_message`. -/
structure Message (ι σ : Type) where
  /-- Sequence number. -/
  seq : Uint16
  /-- How many modules are using this message. -/
  ref : Uint16
  /-- Type, major and minor number, packed. -/
  code : ℕ
  /-- Source of the message. -/
  src : Source ι
  /-- Destination segment. -/
  dst : Option σ
  /-- Payload. -/
  smartPayload : Word
  /-- The union of `extra`, `ipc_return` and `pn`. -/
  aux : Aux σ
  /-- History: the drawing of a sequence number that `seq` came from. -/
  draw : ℕ
  deriving DecidableEq, Repr

namespace Message

variable {ι σ : Type}

/-- The message after `memset(msg, 0, sizeof(struct mblue_message))`. -/
def zero : Message ι σ := ⟨0, 0, 0, .null, none, 0, .null, 0⟩

/-- `GET_TYPE(msg)`. -/
def type (m : Message ι σ) : Option MessageType := getType m.code

/-- `GET_MAJOR(msg)`. -/
def major (m : Message ι σ) : Option Major := getMajor m.code

/-- `GET_MINOR(msg)`. -/
def minor (m : Message ι σ) : ℕ := getMinor m.code

/-- The message is a request. -/
def isCall (m : Message ι σ) : Bool := m.type.any MessageType.isCall

end Message

/-- `get_mblue_message` on the counter: a 16-bit increment. -/
def getMblueMessage (ref : Uint16) : Uint16 := ref + 1

/-- `put_mblue_message` on the counter: a count of zero stays zero. -/
def putMblueMessage (ref : Uint16) : Uint16 := if ref = 0 then 0 else ref - 1

/-- Below the wrap-around, taking a reference adds one. -/
theorem getMblueMessage_val {ref : Uint16} (h : ref.val ≠ 65535) :
    (getMblueMessage ref).val = ref.val + 1 := by
  have hlt : ref.val < 65536 := ref.isLt
  unfold getMblueMessage
  rw [Fin.val_add]
  show (ref.val + 1) % 65536 = _
  omega

/-- Dropping a reference subtracts one, down to zero. -/
theorem putMblueMessage_val (ref : Uint16) : (putMblueMessage ref).val = ref.val - 1 := by
  have hlt : ref.val < 65536 := ref.isLt
  unfold putMblueMessage
  split
  · next h => rw [h]; rfl
  · next h =>
    have hpos : ref.val ≠ 0 := fun h0 ↦ h (Fin.ext h0)
    rw [Fin.val_sub]
    show (65536 - 1 + ref.val) % 65536 = _
    omega

/-! ### The sequence counter -/

/-- `mblue_message_get_sequence` on the counter: `if (++sequence & 0x8000) sequence = 0`. -/
def mblueMessageGetSequence (sequence : Uint16) : Uint16 :=
  if (sequence + 1).val &&& 0x8000 ≠ 0 then 0 else sequence + 1

/-- The counter runs through the 15-bit numbers and starts again. -/
theorem mblueMessageGetSequence_val {sequence : Uint16} (h : sequence.val < 32768) :
    (mblueMessageGetSequence sequence).val = (sequence.val + 1) % 32768 := by
  have hval : (sequence + 1).val = sequence.val + 1 := by
    rw [Fin.val_add]
    show (sequence.val + 1) % 65536 = _
    omega
  unfold mblueMessageGetSequence
  rw [hval]
  rcases Nat.lt_or_ge (sequence.val + 1) 32768 with hlt | hge
  · have hand : (sequence.val + 1) &&& 0x8000 = 0 := by
      rw [show 0x8000 = 2 ^ 15 from rfl, Nat.and_two_pow, Nat.testBit_lt_two_pow hlt]
      rfl
    rw [hand, if_neg (by simp), hval, Nat.mod_eq_of_lt hlt]
  · have heq : sequence.val + 1 = 32768 := by omega
    rw [heq, if_pos (by decide)]
    rfl

end Mblue
