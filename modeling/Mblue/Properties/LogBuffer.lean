import Mblue.Ipc.LogWrite

/-!
# A log line and its buffer

The line is the file name with the level, if the path has a file name, and the message. As long as
the first part has no more than `MAX_LOG_CACHE_LEN` characters, the line is cut where the buffer ends.
With more, the room for the message is a difference below zero, which is a size of nearly `2 ^ 32`:
the message is written behind the buffer.
-/

namespace Mblue

variable {level : UInt32} {source message : CString}

/-! ### The line -/

/-- The part of a path behind its last separator, if it has one. -/
def fileName (path : List UInt8) : Option (List UInt8) :=
  if path.any isSeparator then some (path.rtakeWhile fun c ↦ !isSeparator c) else none

/-- The file name with the level; empty when the path has no separator. -/
def linePrefix (level : UInt32) (source : CString) : List UInt8 :=
  match fileName source.bytes with
  | some name => logPrefix name level
  | none => []

/-- **The line stays in its buffer**: every byte is written to `tmp`, the string there is a prefix of
the line, and it is the whole line if this has at most 126 characters. -/
def LineInBuffer (level : UInt32) (source message : CString) : Prop :=
  ∃ tmp text, logServiceWrite true level source message = .formatted tmp text ∧
    text <+: linePrefix level source ++ message.bytes ∧
    ((linePrefix level source ++ message.bytes).length ≤ 126 →
      text = linePrefix level source ++ message.bytes)

/-! ### The file name -/

theorem logFileNameLoop_append (l r : List UInt8) {n : ℕ} (hn : n ≤ l.length) :
    logFileNameLoop (l ++ r) n = logFileNameLoop l n := by
  induction n with
  | zero => rfl
  | succ n ih =>
    rw [logFileNameLoop, logFileNameLoop, ih (Nat.le_of_succ_le hn),
      List.getD_append _ _ _ _ (Nat.lt_of_succ_le hn)]

theorem le_of_logFileNameLoop {path : List UInt8} {n q : ℕ}
    (h : logFileNameLoop path n = some q) : q ≤ n := by
  induction n with
  | zero => exact absurd h (by simp [logFileNameLoop])
  | succ n ih =>
    rw [logFileNameLoop] at h
    split_ifs at h with hsep
    · exact (Option.some.inj h).ge
    · exact (ih h).trans n.le_succ

/-- A character behind a path is the last one of its file name, or begins another one. -/
theorem fileName_concat (path : List UInt8) (c : UInt8) :
    fileName (path ++ [c]) =
      if isSeparator c then some [] else (fileName path).map (· ++ [c]) := by
  unfold fileName
  by_cases hsep : isSeparator c = true
  · simp [hsep]
  · by_cases hany : path.any isSeparator = true <;> simp [hsep, hany]

/-- **The scan from the end** finds the file name. -/
theorem fileName_eq (path : List UInt8) :
    fileName path = (logGetFileNamePointer path path.length).map path.drop := by
  rw [logGetFileNamePointer]
  induction path using List.reverseRecOn with
  | nil => rfl
  | append_singleton path c ih =>
    have hlast : (path ++ [c]).getD path.length 0 = c := by
      rw [List.getD_append_right _ _ _ _ le_rfl, Nat.sub_self]
      rfl
    rw [fileName_concat, List.length_append, List.length_singleton, logFileNameLoop, hlast,
      logFileNameLoop_append _ _ le_rfl, ih]
    by_cases hsep : isSeparator c = true
    · rw [if_pos hsep, if_pos hsep, Option.map_some, ← List.length_singleton (a := c),
        ← List.length_append, List.drop_length]
    · rw [if_neg hsep, if_neg hsep]
      cases hloop : logFileNameLoop path path.length with
      | none => rfl
      | some q =>
        rw [Option.map_some, Option.map_some, Option.map_some,
          List.drop_append_of_le_length (le_of_logFileNameLoop hloop)]

/-- A level has one digit. -/
theorem length_logPrefix (name : List UInt8) (hlevel : level < logLevelMax) :
    (logPrefix name level).length = name.length + 4 := by
  have hdigit : ∀ n < 5, (decimalText n).length = 1 := by decide
  have hlt : level.toNat < 5 := UInt32.lt_iff_toNat_lt.1 hlevel
  simp [logPrefix, hdigit _ hlt]

theorem decimalText_nul (hlevel : level < logLevelMax) : 0 ∉ decimalText level.toNat := by
  have hdigits : ∀ n < 5, 0 ∉ decimalText n := by decide
  exact hdigits _ (UInt32.lt_iff_toNat_lt.1 hlevel)

theorem logPrefix_nul {name : List UInt8} (hname : 0 ∉ name) (hlevel : level < logLevelMax) :
    0 ∉ logPrefix name level := by
  simp [logPrefix, hname, decimalText_nul hlevel]

/-! ### The two calls -/

/-- Where there is room for it, the text is written with a zero byte behind it. -/
theorem snprintf_eq (block text : List UInt8) (pos : ℕ) {n : UInt32} (hn : n ≠ 0)
    (hfits : pos + (min (n.toNat - 1) text.length + 1) ≤ block.length) :
    ∃ rest, snprintf block pos n text =
        some (block.take pos ++ text.take (n.toNat - 1) ++ 0 :: rest) ∧
      (block.take pos ++ text.take (n.toNat - 1) ++ 0 :: rest).length = block.length := by
  refine ⟨block.drop (pos + (min (n.toNat - 1) text.length + 1)), ?_, ?_⟩
  · have hlength : (text.take (n.toNat - 1) ++ [0]).length = min (n.toNat - 1) text.length + 1 := by
      rw [List.length_append, List.length_take, List.length_singleton]
    rw [snprintf, if_neg hn, copyIn, hlength, if_pos hfits]
    simp only [List.append_assoc, List.singleton_append]
  · simp only [List.length_append, List.length_take, List.length_cons, List.length_drop]
    omega

theorem snprintf_outside {block text : List UInt8} {pos : ℕ} {n : UInt32} (hn : n ≠ 0)
    (hpos : block.length ≤ pos) : snprintf block pos n text = none := by
  rw [snprintf, if_neg hn, copyIn, if_neg]
  rw [List.length_append, List.length_singleton]
  omega

/-- The file name and the level, cut to 126 characters. -/
theorem snprintf_prefix (text : List UInt8) :
    ∃ rest, snprintf (List.replicate maxLogCacheLen.toNat 0) 0 (maxLogCacheLen - 1) text =
      some (text.take 126 ++ 0 :: rest) ∧ (text.take 126 ++ 0 :: rest).length = 128 := by
  have hsize : (maxLogCacheLen - 1).toNat - 1 = 126 := rfl
  have hblock : (List.replicate maxLogCacheLen.toNat (0 : UInt8)).length = 128 := rfl
  obtain ⟨rest, hwrite, hlength⟩ := snprintf_eq (List.replicate maxLogCacheLen.toNat 0) text 0
    (n := maxLogCacheLen - 1) (by decide) (by rw [hblock, hsize]; omega)
  rw [hsize, List.take_zero, List.nil_append] at hwrite hlength
  exact ⟨rest, hwrite, hlength.trans hblock⟩

/-- **A line without a file name** is the message, cut to 127 characters. -/
theorem logFormat_message (level : UInt32) (message : CString)
    (hnone : logGetFileNamePointer source.bytes source.bytes.length = none) :
    ∃ rest, logFormat level source message = some (message.bytes.take 127 ++ 0 :: rest) := by
  have hsize : (maxLogCacheLen - 0).toNat - 1 = 127 := rfl
  have hblock : (List.replicate maxLogCacheLen.toNat (0 : UInt8)).length = 128 := rfl
  obtain ⟨rest, hwrite, -⟩ := snprintf_eq (List.replicate maxLogCacheLen.toNat 0) message.bytes 0
    (n := maxLogCacheLen - 0) (by decide) (by rw [hblock, hsize]; omega)
  rw [hsize, List.take_zero, List.nil_append] at hwrite
  refine ⟨rest, ?_⟩
  simp only [logFormat, hnone]
  exact hwrite

/-- The second call writes behind the file name and the level, as far as their length says. -/
theorem logFormat_second (message : CString) {q : ℕ}
    (hsome : logGetFileNamePointer source.bytes source.bytes.length = some q) {text : List UInt8}
    (htext : text = logPrefix (source.bytes.drop q) level) (hlen : text.length < 2 ^ 32) :
    ∃ rest, (text.take 126 ++ 0 :: rest).length = 128 ∧
      logFormat level source message = snprintf (text.take 126 ++ 0 :: rest) text.length
        (maxLogCacheLen - UInt32.ofNat text.length) message.bytes := by
  obtain ⟨rest, hfirst, hlength⟩ := snprintf_prefix text
  have hround : (UInt32.ofNat text.length).toNat = text.length := by
    rw [UInt32.toNat_ofNat']
    exact Nat.mod_eq_of_lt hlen
  refine ⟨rest, hlength, ?_⟩
  simp only [logFormat, hsome, ← htext, hfirst, hround, Option.bind_eq_bind, Option.bind_some,
    Option.pure_def]

/-- The room that is left for the message. -/
theorem toNat_room {n : ℕ} (hn : n ≤ 128) :
    (maxLogCacheLen - UInt32.ofNat n).toNat = 128 - n := by
  have hround : (UInt32.ofNat n).toNat = n := by
    rw [UInt32.toNat_ofNat']
    exact Nat.mod_eq_of_lt (by omega)
  have hle : UInt32.ofNat n ≤ maxLogCacheLen := by
    rw [UInt32.le_iff_toNat_le, hround]
    exact hn
  rw [UInt32.toNat_sub_of_le _ _ hle, hround]
  rfl

/-- **A line with a file name** whose first part has up to 128 characters is cut to 127, or to 126 when
nothing of the message is written. -/
theorem logFormat_prefix (message : CString) {q : ℕ}
    (hsome : logGetFileNamePointer source.bytes source.bytes.length = some q) {text : List UInt8}
    (htext : text = logPrefix (source.bytes.drop q) level) (hlen : text.length ≤ 128) :
    ∃ rest, logFormat level source message =
      some (if text.length ≤ 126 then text ++ message.bytes.take (127 - text.length) ++ 0 :: rest
        else text.take 126 ++ 0 :: rest) := by
  obtain ⟨rest, hlength, hformat⟩ := logFormat_second message hsome htext (by omega)
  have hroom := toNat_room hlen
  rw [hformat]
  obtain hlt | heq : text.length < 128 ∨ text.length = 128 := by omega
  · obtain ⟨rest', hwrite, -⟩ := snprintf_eq (text.take 126 ++ 0 :: rest) message.bytes
      text.length (n := maxLogCacheLen - UInt32.ofNat text.length)
      (fun h ↦ by rw [h] at hroom; have : (0 : UInt32).toNat = 0 := rfl; omega)
      (by rw [hlength, hroom]; omega)
    rw [hroom, Nat.sub_right_comm] at hwrite
    rw [hwrite]
    split_ifs with hshort
    · refine ⟨rest', ?_⟩
      rw [List.take_of_length_le hshort, List.take_left]
    · -- 127 characters: one more zero byte behind the one of the first call
      have hseven : text.length = 127 := by omega
      have hcut : (text.take 126).length = 126 := by
        rw [List.length_take, hseven]
        rfl
      have hkept : (text.take 126 ++ 0 :: rest).take 127 = text.take 126 ++ [0] := by
        rw [List.take_append, hcut, List.take_of_length_le (hcut.trans_le (by decide))]
        rfl
      refine ⟨0 :: rest', ?_⟩
      rw [hseven, hkept]
      simp
  · -- 128 characters: the size is zero
    have hzero : maxLogCacheLen - UInt32.ofNat text.length = 0 :=
      UInt32.toNat_inj.1 (by rw [hroom, heq]; rfl)
    refine ⟨rest, ?_⟩
    rw [hzero, snprintf, if_pos rfl, if_neg (by omega)]

/-- **A longer file name**: the size of the second call wraps around. -/
theorem logFormat_overrun (message : CString) {q : ℕ}
    (hsome : logGetFileNamePointer source.bytes source.bytes.length = some q) {text : List UInt8}
    (htext : text = logPrefix (source.bytes.drop q) level) (hlen : text.length < 2 ^ 32)
    (hlong : 128 < text.length) : logFormat level source message = none := by
  obtain ⟨rest, hlength, hformat⟩ := logFormat_second message hsome htext hlen
  have hround : (UInt32.ofNat text.length).toNat = text.length := by
    rw [UInt32.toNat_ofNat']
    exact Nat.mod_eq_of_lt hlen
  have hsize : maxLogCacheLen - UInt32.ofNat text.length ≠ 0 := by
    intro hzero
    have hwrap : (maxLogCacheLen - UInt32.ofNat text.length).toNat = 0 := by
      rw [hzero]
      rfl
    have h128 : maxLogCacheLen.toNat = 128 := rfl
    rw [UInt32.toNat_sub, hround, h128] at hwrap
    omega
  rw [hformat]
  exact snprintf_outside hsize (by omega)

/-! ### When the line stays in its buffer -/

/-- The string that is read back. -/
theorem logServiceWrite_formatted (hlevel : level < logLevelMax) {text rest : List UInt8}
    (hnul : 0 ∉ text) (h : logFormat level source message = some (text ++ 0 :: rest)) :
    logServiceWrite true level source message = .formatted (text ++ 0 :: rest) text := by
  have hstring : cStringAt (text ++ 0 :: rest) 0 = some text :=
    cStringAt_of_drop hnul List.drop_zero
  rw [logServiceWrite, if_neg (UInt32.not_le.2 hlevel), h]
  simp only [hstring]
  rfl

theorem CString.take_nul (s : CString) (n : ℕ) : 0 ∉ s.bytes.take n :=
  fun h ↦ s.nul (List.mem_of_mem_take h)

/-- A line without a file name. -/
theorem lineInBuffer_message (hlevel : level < logLevelMax)
    (hnone : logGetFileNamePointer source.bytes source.bytes.length = none) :
    LineInBuffer level source message := by
  have hline : linePrefix level source = [] := by
    rw [linePrefix, fileName_eq, hnone]
    rfl
  obtain ⟨rest, hformat⟩ := logFormat_message level message hnone
  refine ⟨_, _, logServiceWrite_formatted hlevel (message.take_nul 127) hformat, ?_, fun hlen ↦ ?_⟩
  · rw [hline]
    exact List.take_prefix _ _
  · rw [hline, List.nil_append] at hlen ⊢
    exact List.take_of_length_le (hlen.trans (by decide))

/-- A line with a file name that fits. -/
theorem lineInBuffer_prefix (hlevel : level < logLevelMax) {text : List UInt8}
    (hnul : 0 ∉ text) {q : ℕ}
    (hsome : logGetFileNamePointer source.bytes source.bytes.length = some q)
    (htext : text = logPrefix (source.bytes.drop q) level) (hlen : text.length ≤ 128) :
    LineInBuffer level source message := by
  have hline : linePrefix level source = text := by
    rw [linePrefix, fileName_eq, hsome, htext]
    rfl
  obtain ⟨rest, hformat⟩ := logFormat_prefix message hsome htext hlen
  split_ifs at hformat with hshort
  · have hshown : 0 ∉ text ++ message.bytes.take (127 - text.length) := by
      rw [List.mem_append, not_or]
      exact ⟨hnul, message.take_nul _⟩
    refine ⟨_, _, logServiceWrite_formatted hlevel hshown hformat, ?_, fun hall ↦ ?_⟩
    · rw [hline]
      exact (List.prefix_append_right_inj text).2 (List.take_prefix _ _)
    · rw [hline, List.length_append] at hall
      rw [hline, List.take_of_length_le (by omega)]
  · have hshown : 0 ∉ text.take 126 := fun h ↦ hnul (List.mem_of_mem_take h)
    refine ⟨_, _, logServiceWrite_formatted hlevel hshown hformat, ?_, fun hall ↦ ?_⟩
    · rw [hline]
      exact (List.take_prefix _ _).trans (List.prefix_append _ _)
    · rw [hline, List.length_append] at hall
      omega

/-- **The line stays in its buffer exactly when** the path has no file name or one of at most 124
characters. -/
theorem lineInBuffer_iff (hlevel : level < logLevelMax) (source message : CString) :
    LineInBuffer level source message ↔
      ∀ name, fileName source.bytes = some name → name.length ≤ 124 := by
  cases hscan : logGetFileNamePointer source.bytes source.bytes.length with
  | none =>
    refine iff_of_true (lineInBuffer_message hlevel hscan) fun name hname ↦ ?_
    rw [fileName_eq, hscan] at hname
    exact absurd hname (by simp)
  | some q =>
    have hname : fileName source.bytes = some (source.bytes.drop q) := by
      rw [fileName_eq, hscan]
      rfl
    have hlength := length_logPrefix (source.bytes.drop q) hlevel
    constructor
    · rintro ⟨tmp, text, hwrite, -⟩ name hname'
      obtain rfl := Option.some.inj (hname.symm.trans hname')
      by_contra hlong
      have hbound := source.length_lt
      have hdrop : (source.bytes.drop q).length ≤ source.bytes.length :=
        (List.length_drop ..).trans_le (Nat.sub_le _ _)
      have hformat := logFormat_overrun message hscan (Eq.refl (logPrefix _ level)) (by omega)
        (by omega)
      rw [logServiceWrite, if_neg (UInt32.not_le.2 hlevel), hformat] at hwrite
      exact LogLine.noConfusion hwrite
    · intro hshort
      have hnul : 0 ∉ source.bytes.drop q := fun h ↦ source.nul (List.mem_of_mem_drop h)
      have := hshort _ hname
      exact lineInBuffer_prefix hlevel (logPrefix_nul hnul hlevel) hscan rfl (by omega)

/-- A file `/a` of one character. -/
theorem lineInBuffer_short :
    LineInBuffer 1 ⟨[47, 97], by decide, by decide⟩ ⟨[], by decide, by decide⟩ :=
  (lineInBuffer_iff (by decide) _ _).2 fun name hname ↦ by
    obtain rfl := Option.some.inj hname
    decide

/-- A file whose name has 125 characters. -/
def longPath : CString :=
  ⟨47 :: List.replicate 125 97, by simp, by simp⟩

/-- With that file the terminator of an empty message is written behind the buffer. -/
theorem not_lineInBuffer_long :
    ¬∀ (level : UInt32) (source message : CString), level < logLevelMax →
      LineInBuffer level source message := by
  intro h
  obtain ⟨tmp, text, hwrite, -⟩ := h 1 longPath ⟨[], by decide, by decide⟩ (by decide)
  have hscan : logGetFileNamePointer longPath.bytes longPath.bytes.length = some 1 := by
    decide +kernel
  have hlength : (logPrefix (longPath.bytes.drop 1) 1).length = 129 := by decide +kernel
  have hformat := logFormat_overrun ⟨[], by decide, by decide⟩ hscan (Eq.refl (logPrefix _ 1))
    (by omega) (by omega)
  rw [logServiceWrite, if_neg (by decide), hformat] at hwrite
  exact LogLine.noConfusion hwrite

end Mblue
