import Mblue.Common.Block
import Mblue.Common.SmartData
import Mblue.Schema.RoundTrip

/-!
# Formatting a log line

`log_service_write` formats a line in two calls: the file name and the level into `tmp`, and the
message behind them. How much room the second call has is computed from what the first one returns,
the length that its text would have had, in the unsigned arithmetic of `size_t`.

The message is the text that the format and its arguments expand to. What follows the formatting,
the serialized request to the log service, is not part of this module.
-/

namespace Mblue

/-- A string, without its terminator; an object has less than `2 ^ 31` bytes. -/
structure CString where
  bytes : List UInt8
  nul : 0 ∉ bytes
  length_lt : bytes.length < 2 ^ 31

/-- `MAX_LOG_CACHE_LEN`. -/
def maxLogCacheLen : UInt32 := 128

/-- `LOG_LEVEL_MAX`. -/
def logLevelMax : UInt32 := 5

/-- A slash or a backslash. -/
def isSeparator (c : UInt8) : Bool := c == 92 || c == 47

/-- The loop of `__log_get_file_name_pointer`: the position behind the last separator. -/
def logFileNameLoop (fullPath : List UInt8) : ℕ → Option ℕ
  | 0 => none
  | pos + 1 =>
    if isSeparator (fullPath.getD pos 0) then some (pos + 1) else logFileNameLoop fullPath pos

/-- `__log_get_file_name_pointer`. -/
def logGetFileNamePointer (fullPath : List UInt8) (len : ℕ) : Option ℕ :=
  logFileNameLoop fullPath len

/-- `%d`. -/
def decimalText (n : ℕ) : List UInt8 :=
  (Nat.toDigits 10 n).map fun digit ↦ digit.toNat.toUInt8

/-- The text of `"%s[%d] "`. -/
def logPrefix (name : List UInt8) (level : UInt32) : List UInt8 :=
  name ++ [91] ++ decimalText level.toNat ++ [93, 32]

/-- `snprintf` and `vsnprintf` at a position of a block: as much of the text as there is room for, and
a zero byte; nothing when the size is zero. -/
def snprintf (block : List UInt8) (pos : ℕ) (n : UInt32) (text : List UInt8) :
    Option (List UInt8) :=
  if n = 0 then some block else copyIn block pos (text.take (n.toNat - 1) ++ [0])

/-- `tmp` after the two calls; `none` when a byte was written outside. -/
def logFormat (level : UInt32) (source message : CString) : Option (List UInt8) := do
  let tmp := List.replicate maxLogCacheLen.toNat 0
  let (tmp, logLen) ←
    match logGetFileNamePointer source.bytes source.bytes.length with
    | some p => do
      let text := logPrefix (source.bytes.drop p) level
      let tmp ← snprintf tmp 0 (maxLogCacheLen - 1) text
      pure (tmp, UInt32.ofNat text.length)
    | none => pure (tmp, 0)
  snprintf tmp logLen.toNat (maxLogCacheLen - logLen) message.bytes

/-- What `log_service_write` comes to before it serializes its request. -/
inductive LogLine
  | refused (rc : MblueErrcode)
  /-- A byte outside `tmp` was written or read. -/
  | overrun
  /-- The string in `tmp` goes into the request. -/
  | formatted (tmp text : List UInt8)
  deriving DecidableEq, Repr

/-- `log_service_write`, given whether there is memory for `tmp`. -/
def logServiceWrite (tmpFound : Bool) (level : UInt32) (source message : CString) : LogLine :=
  if logLevelMax ≤ level then .refused .errLogLevel
  else if !tmpFound then .refused .errNomem
  else
    match logFormat level source message with
    | none => .overrun
    | some tmp =>
      match cStringAt tmp 0 with
      | none => .overrun
      | some text => .formatted tmp text

end Mblue
