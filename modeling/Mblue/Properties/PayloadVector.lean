import Mathlib
import Mblue.Map.PayloadVector

/-!
# What a payload vector carries

A vector is allocated, filled through an iterator, parsed and released. From a vector whose entries
begin where its block begins the values come back, the guard stays and the block is freed
(`carriesValues_of_start`). `mblue_payload_vector_alloc` makes another vector: it stores the pointer
that it has moved to the guard. So the first value overwrites the guard, the second one lies outside
the block, and the pointer that is freed is not the one that was allocated.
-/

namespace Mblue

/-! ### Tagged values -/

/-- A value to be carried: an integer of 30 bits, or a pointer to a word in static memory or in the
heap. -/
inductive TaggedValue
  | integer (x : UInt32) (h : x.toNat < 2 ^ 30)
  | staticPointer (a : UInt32) (h : a &&& 3 = 0)
  | heapPointer (a : UInt32) (h : a &&& 3 = 0)

namespace TaggedValue

/-- The word that stands for a value. -/
def word : TaggedValue → UInt32
  | integer x _ => PayloadWord.makeInteger x
  | staticPointer a _ => PayloadWord.makePointer a
  | heapPointer a _ => a ||| 3

/-- The value itself. -/
def value : TaggedValue → UInt32
  | integer x _ => x
  | staticPointer a _ => a
  | heapPointer a _ => a

end TaggedValue

namespace PayloadWord

theorem toNat_makeInteger {x : UInt32} (h : x.toNat < 2 ^ 30) :
    (makeInteger x).toNat = 2 ^ 2 * x.toNat + 1 := by
  have hshift : (x <<< 2).toNat = 2 ^ 2 * x.toNat := by
    rw [UInt32.toNat_shiftLeft, Nat.shiftLeft_eq]
    exact (Nat.mod_eq_of_lt (by simp; omega)).trans (Nat.mul_comm _ _)
  rw [makeInteger, UInt32.toNat_or, hshift]
  exact (Nat.two_pow_add_eq_or_of_lt (by decide) _).symm

theorem makeInteger_and {x : UInt32} (h : x.toNat < 2 ^ 30) : makeInteger x &&& 3 = 1 := by
  refine UInt32.toNat_inj.1 ?_
  have hthree : (3 : UInt32).toNat = 2 ^ 2 - 1 := rfl
  rw [UInt32.toNat_and, toNat_makeInteger h, hthree, Nat.and_two_pow_sub_one_eq_mod,
    Nat.mul_add_mod]
  rfl

theorem getInteger_makeInteger {x : UInt32} (h : x.toNat < 2 ^ 30) :
    getInteger (makeInteger x) = x := by
  refine UInt32.toNat_inj.1 ?_
  rw [getInteger, UInt32.toNat_shiftRight, toNat_makeInteger h, Nat.shiftRight_eq_div_pow]
  exact (Nat.mul_add_div (by decide) _ _).trans (Nat.add_zero _)

theorem or_and (x y z : UInt32) : (x ||| y) &&& z = x &&& z ||| y &&& z :=
  UInt32.eq_of_toBitVec_eq BitVec.and_or_distrib_right

/-- The tag of a word is what was put in the low bits of an aligned pointer. -/
theorem or_and_three {a t : UInt32} (h : a &&& 3 = 0) : (a ||| t) &&& 3 = t &&& 3 := by
  rw [or_and, h, UInt32.zero_or]

theorem getPointer_or {a t : UInt32} (h : a &&& 3 = 0) (ht : t &&& 0xFFFFFFFC = 0) :
    getPointer (a ||| t) = a := by
  have hall : (3 ||| 0xFFFFFFFC) &&& a = a := (UInt32.and_comm _ _).trans UInt32.and_neg_one
  rw [or_and, UInt32.and_comm 3, h, UInt32.zero_or, UInt32.and_comm] at hall
  rw [getPointer, or_and, ht, UInt32.or_zero, hall]

end PayloadWord

namespace TaggedValue

/-- No value is taken for a payload. -/
theorem payloadP_word (v : TaggedValue) : PayloadWord.payloadP v.word = false := by
  cases v with
  | integer x h =>
    rw [word, PayloadWord.payloadP, PayloadWord.makeInteger_and h]
    rfl
  | staticPointer a h =>
    rw [word, PayloadWord.payloadP, PayloadWord.makePointer, PayloadWord.or_and_three h]
    rfl
  | heapPointer a h =>
    rw [word, PayloadWord.payloadP, PayloadWord.or_and_three h]
    rfl

theorem word_ne_zero (v : TaggedValue) : v.word ≠ 0 := by
  intro h
  have htag := v.payloadP_word
  rw [h] at htag
  exact Bool.false_ne_true htag.symm

end TaggedValue

/-! ### The operations on a vector -/

namespace PayloadMemory

variable {m : PayloadMemory} {p : UInt32} {size : UInt32} {block : ℕ} {cells : List UInt32}

/-- A payload is a vector whose entries begin where a block begins. -/
structure IsVector (m : PayloadMemory) (p size : UInt32) (block : ℕ) (cells : List UInt32) :
    Prop where
  payload : m.payloads p = some (.vector size ⟨block, 0⟩)
  entries : m.entries block = some cells
  room : size.toNat < cells.length

theorem load_eq (h : m.entries block = some cells) {i : ℕ} {word : UInt32}
    (hword : cells[i]? = some word) : m.load ⟨block, i⟩ = .ok word := by
  simp [load, h, hword]

theorem store_eq (h : m.entries block = some cells) {i : ℕ} (hi : i < cells.length)
    (word : UInt32) : m.store ⟨block, i⟩ word =
      .ok { m with entries := Function.update m.entries block (some (cells.set i word)) } := by
  simp [store, h, hi]

theorem vectorAt_eq {elts : EntryPtr} (h : m.payloads p = some (.vector size elts)) :
    m.vectorAt p = .ok (size, elts) := by
  simp [vectorAt, h]

/-- What `parse` does with a value. -/
theorem parseItem_word (m : PayloadMemory) (v : TaggedValue) {dest : List UInt32} {i : ℕ}
    (hi : i < dest.length) : m.parseItem v.word dest i = .ok (dest.set i v.value, i + 1) := by
  cases v with
  | integer x h =>
    have htag : PayloadWord.integerP (PayloadWord.makeInteger x) = true := by
      rw [PayloadWord.integerP, PayloadWord.makeInteger_and h]
      rfl
    simp [parseItem, TaggedValue.word, TaggedValue.value, htag, storeDest, hi,
      PayloadWord.getInteger_makeInteger h]
  | staticPointer a h =>
    have hvalue : PayloadWord.getPointer (a ||| 2) = a := PayloadWord.getPointer_or h rfl
    have hinteger : PayloadWord.integerP (a ||| 2) = false := by
      rw [PayloadWord.integerP, PayloadWord.or_and_three h]
      rfl
    have htag : PayloadWord.pointerP (a ||| 2) = true := by
      rw [PayloadWord.pointerP, PayloadWord.pointerStatic, PayloadWord.or_and_three h]
      rfl
    simp [parseItem, TaggedValue.word, TaggedValue.value, PayloadWord.makePointer, hinteger, htag,
      storeDest, hi, hvalue]
  | heapPointer a h =>
    have hvalue : PayloadWord.getPointer (a ||| 3) = a := PayloadWord.getPointer_or h rfl
    have hinteger : PayloadWord.integerP (a ||| 3) = false := by
      rw [PayloadWord.integerP, PayloadWord.or_and_three h]
      rfl
    have htag : PayloadWord.pointerP (a ||| 3) = true := by
      rw [PayloadWord.pointerP, PayloadWord.pointerDynamic, PayloadWord.or_and_three h, Bool.or_eq_true]
      exact .inr rfl
    simp [parseItem, TaggedValue.word, TaggedValue.value, hinteger, htag, storeDest, hi,
      hvalue]

/-- **The iterator moves on**, and tells whether there is another entry. -/
theorem IsVector.iterNext (h : IsVector m p size block cells) {i : ℕ} (hi : i < size.toNat)
    {word : UInt32} (hword : cells[i + 1]? = some word) :
    m.iterNext ⟨p, ⟨block, i⟩⟩ = .ok
      (if i + 1 < size.toNat ∧ word ≠ guardMagic then 0 else -1, ⟨p, ⟨block, i + 1⟩⟩) := by
  have hdist : UInt32.ofNat (i + 1) - UInt32.ofNat 0 < size ↔ i + 1 < size.toNat := by
    have := size.toNat_lt
    have hzero : (UInt32.ofNat 0).toNat = 0 := rfl
    have hone : (UInt32.ofNat (i + 1)).toNat = i + 1 := by
      rw [UInt32.toNat_ofNat']
      exact Nat.mod_eq_of_lt (by omega)
    rw [UInt32.lt_iff_toNat_lt, UInt32.toNat_sub, hzero, hone]
    omega
  have hload : m.load ⟨block, i + 1⟩ = .ok word := load_eq h.entries hword
  rw [PayloadMemory.iterNext, vectorAt_eq h.payload]
  by_cases hnext : i + 1 < size.toNat
  · simp only [bind, Except.bind, if_pos (hdist.2 hnext), hload, hnext, true_and]
    rfl
  · simp only [bind, Except.bind, if_neg (mt hdist.1 hnext), hnext, false_and]
    rfl

/-- To write an entry leaves a vector. -/
theorem IsVector.set (h : IsVector m p size block cells) (i : ℕ) (word : UInt32) :
    IsVector { m with entries := Function.update m.entries block (some (cells.set i word)) } p size
      block (cells.set i word) :=
  ⟨h.payload, Function.update_self _ _ _, h.room.trans_eq List.length_set.symm⟩

/-- **The entries are filled in order.** -/
theorem IsVector.fill (h : IsVector m p size block cells) (words : List UInt32) {i : ℕ}
    (hi : i + words.length ≤ size.toNat) :
    ∃ m', m.fill ⟨p, ⟨block, i⟩⟩ words = .ok m' ∧ m'.payloads = m.payloads ∧
      IsVector m' p size block
        (cells.take i ++ words ++ cells.drop (i + words.length)) := by
  induction words generalizing m cells i with
  | nil =>
    refine ⟨m, rfl, rfl, ?_⟩
    simpa using h
  | cons word words ih =>
    rw [List.length_cons] at hi
    have hroom := h.room
    have hstore := store_eq h.entries (i := i) (by omega) word
    have hset := h.set i word
    obtain ⟨next, hnext⟩ : ∃ next, (cells.set i word)[i + 1]? = some next :=
      Option.isSome_iff_exists.1 (by simp; omega)
    obtain ⟨m', hfill, hpayloads, hvector⟩ := ih hset (i := i + 1) (by omega)
    refine ⟨m', ?_, hpayloads, ?_⟩
    · rw [PayloadMemory.fill, vectorPut, hstore]
      simp only [bind, Except.bind, hset.iterNext (by omega) hnext]
      exact hfill
    · have hcells : (cells.set i word).take (i + 1) ++ words ++
          (cells.set i word).drop (i + 1 + words.length) =
            cells.take i ++ word :: words ++ cells.drop (i + (word :: words).length) := by
        have hend : i + (words.length + 1) = i + 1 + words.length := by omega
        rw [List.take_add_one, List.take_set_of_le le_rfl, List.getElem?_set_self (by omega),
          List.drop_set_of_lt (by omega), List.length_cons, hend]
        simp
      rwa [hcells] at hvector

/-- **One round of `parse`** decodes a value and looks for another one. -/
theorem IsVector.parseLoop_succ (h : IsVector m p size block cells) {i : ℕ} (hi : i < size.toNat)
    {v : TaggedValue} (hv : cells[i]? = some v.word) {next : UInt32}
    (hnext : cells[i + 1]? = some next) {dest : List UInt32} (hdest : dest[i]? = some 0)
    (fuel : ℕ) :
    m.parseLoop (fuel + 1) ⟨p, ⟨block, i⟩⟩ dest i =
      if i + 1 < size.toNat ∧ next ≠ guardMagic then
        m.parseLoop fuel ⟨p, ⟨block, i + 1⟩⟩ (dest.set i v.value) (i + 1)
      else .ok (0, dest.set i v.value) := by
  have hzero : (0 : UInt32) ≠ guardMagic := by decide
  have hget : m.vectorGet ⟨p, ⟨block, i⟩⟩ = .ok (some v.word) := by
    rw [vectorGet, load_eq h.entries hv]
    simp only [bind, Except.bind, if_neg v.word_ne_zero]
    rfl
  have hlt : i < dest.length := (List.getElem?_eq_some_iff.1 hdest).1
  rw [parseLoop, hdest]
  simp only [if_neg hzero, bind, Except.bind, hget, parseItem_word m v hlt, h.iterNext hi hnext]
  by_cases hmore : i + 1 < size.toNat ∧ next ≠ guardMagic
  · simp only [if_pos hmore, reduceIte]
  · simp only [if_neg hmore]
    rfl

/-- A round, with the entries and the words of the destination around it. -/
theorem IsVector.parseLoop_round (h : IsVector m p size block cells) {before rest : List UInt32}
    {v : TaggedValue} {next : UInt32} (hcells : cells = before ++ v.word :: next :: rest)
    (hi : before.length < size.toNat) {parsed : List UInt32}
    (hparsed : parsed.length = before.length) (n fuel : ℕ) :
    m.parseLoop (fuel + 1) ⟨p, ⟨block, before.length⟩⟩ (parsed ++ List.replicate (n + 1) 0)
        before.length =
      if before.length + 1 < size.toNat ∧ next ≠ guardMagic then
        m.parseLoop fuel ⟨p, ⟨block, before.length + 1⟩⟩
          (parsed ++ [v.value] ++ List.replicate n 0) (before.length + 1)
      else .ok (0, parsed ++ [v.value] ++ List.replicate n 0) := by
  have hv : cells[before.length]? = some v.word := by
    rw [hcells]
    simp
  have hnext : cells[before.length + 1]? = some next := by
    rw [hcells]
    simp
  have hdest : (parsed ++ List.replicate (n + 1) 0)[before.length]? = some (0 : UInt32) := by
    rw [← hparsed]
    simp
  have hset : (parsed ++ List.replicate (n + 1) 0).set before.length v.value =
      parsed ++ [v.value] ++ List.replicate n 0 := by
    rw [← hparsed, List.replicate_succ, List.set_append_right _ _ le_rfl]
    simp
  rw [h.parseLoop_succ hi hv hnext hdest, hset]

/-- **The values are decoded in order.** The entries before them are parsed already. -/
theorem IsVector.parseLoop (h : IsVector m p size block cells) (before parsed : List UInt32)
    (v : TaggedValue) (spare : ℕ) {values : List TaggedValue} {last : UInt32}
    {rest : List UInt32} {fuel : ℕ}
    (hcells : cells = before ++ (v :: values).map TaggedValue.word ++ last :: rest)
    (hsize : size.toNat = before.length + (values.length + 1))
    (hguard : ∀ u ∈ values, u.word ≠ guardMagic) (hparsed : parsed.length = before.length)
    (hfuel : values.length < fuel) :
    m.parseLoop fuel ⟨p, ⟨block, before.length⟩⟩
        (parsed ++ List.replicate (values.length + spare + 1) 0) before.length =
      .ok (0, parsed ++ (v :: values).map TaggedValue.value ++ List.replicate spare 0) := by
  obtain ⟨fuel, rfl⟩ : ∃ k, fuel = k + 1 := Nat.exists_eq_add_of_le' (by omega)
  induction values generalizing v before parsed fuel with
  | nil =>
    have hround : cells = before ++ v.word :: last :: rest := by simpa using hcells
    rw [h.parseLoop_round hround (by omega) hparsed, if_neg (by simp at hsize; omega)]
    simp
  | cons w values ih =>
    rw [List.length_cons] at hsize hfuel
    have hround : cells = before ++ v.word :: w.word ::
        (values.map TaggedValue.word ++ last :: rest) := by simpa using hcells
    have hmore : before.length + 1 < size.toNat ∧ w.word ≠ guardMagic :=
      ⟨by omega, hguard w List.mem_cons_self⟩
    have hrest := ih (before ++ [v.word]) (parsed ++ [v.value]) w
      (by simpa using hcells) (by simp; omega)
      (fun u hu ↦ hguard u (List.mem_cons_of_mem _ hu)) (by simpa using hparsed)
    obtain ⟨fuel, rfl⟩ : ∃ k, fuel = k + 1 := Nat.exists_eq_add_of_le' (by omega)
    have hzeros : values.length + 1 + spare + 1 = values.length + spare + 1 + 1 := by omega
    rw [List.length_cons, hzeros, h.parseLoop_round hround (by omega) hparsed, if_pos hmore]
    simpa using hrest fuel (by omega)

/-- No item of a vector of values is released. -/
theorem IsVector.releaseItems (h : IsVector m p size block cells)
    (release : UInt32 → Except PayloadFault (List FreedPayload)) (before : List UInt32)
    {values : List TaggedValue} {rest : List UInt32}
    (hcells : cells = before ++ values.map TaggedValue.word ++ rest) :
    m.releaseItems release values.length ⟨block, before.length⟩ = .ok [] := by
  induction values generalizing before with
  | nil => rfl
  | cons v values ih =>
    have hv : cells[before.length]? = some v.word := by
      rw [hcells]
      simp
    have hrest := ih (before ++ [v.word]) (by simpa using hcells)
    rw [List.length_append, List.length_singleton] at hrest
    rw [List.length_cons, PayloadMemory.releaseItems, load_eq h.entries hv]
    simp only [bind, Except.bind, v.payloadP_word, hrest]
    rfl

end PayloadMemory

/-! ### The round trip -/

/-- **The values are carried**: from the vector `p` with one entry for each of them the iterator
writes the values, `parse` returns them in their order, the entry behind them holds the guard, and to
release the vector is to free its block and the vector itself. -/
def CarriesValues (m : PayloadMemory) (p : UInt32) (block : ℕ) (values : List TaggedValue)
    (spare : ℕ) : Prop :=
  ∃ iter m' fuel, m.iterInit p = .ok iter ∧ m.fill iter (values.map TaggedValue.word) = .ok m' ∧
    m'.parseVector fuel p (List.replicate (values.length + spare) 0) =
      .ok (0, values.map TaggedValue.value ++ List.replicate spare 0) ∧
    (m'.entries block).bind (·[values.length]?) = some guardMagic ∧
    m'.vectorRelease fuel p = .ok [.entries ⟨block, 0⟩, .payload p]

/-- The same from the allocation on; the entries are the block that `mblue_malloc` gave. -/
def RoundTrips (m : PayloadMemory) (p : UInt32) (block : ℕ) (values : List TaggedValue)
    (spare : ℕ) : Prop :=
  ∃ m', m.payloadVectorAlloc (some p) (some block) (UInt32.ofNat values.length) =
      .ok (some (p, m')) ∧ CarriesValues m' p block values spare

/-- **A vector whose entries begin where its block begins carries values**, unless one of them is
taken for the guard. -/
theorem carriesValues_of_start {m : PayloadMemory} {p size : UInt32} {block spare : ℕ}
    {cells : List UInt32} {values : List TaggedValue}
    (h : m.IsVector p size block (cells ++ [guardMagic])) (hcells : cells.length = values.length)
    (hsize : size.toNat = values.length) (hsome : values ≠ [])
    (hguard : ∀ v ∈ values, v.word ≠ guardMagic) : CarriesValues m p block values spare := by
  obtain ⟨v, values, rfl⟩ := List.exists_cons_of_ne_nil hsome
  obtain ⟨m', hfill, -, hvector⟩ := h.fill ((v :: values).map TaggedValue.word) (i := 0)
    (by rw [List.length_map, hsize, Nat.zero_add])
  have hfilled : (cells ++ [guardMagic]).take 0 ++ (v :: values).map TaggedValue.word ++
      (cells ++ [guardMagic]).drop (0 + ((v :: values).map TaggedValue.word).length) =
        [] ++ (v :: values).map TaggedValue.word ++ guardMagic :: [] := by
    rw [List.take_zero, Nat.zero_add, List.length_map, ← hcells, List.drop_left]
  rw [hfilled] at hvector
  refine ⟨⟨p, ⟨block, 0⟩⟩, m', values.length + 1, ?_, hfill, ?_, ?_, ?_⟩
  · rw [PayloadMemory.iterInit, PayloadMemory.vectorAt_eq h.payload]
    rfl
  · have hparse := hvector.parseLoop [] [] v spare rfl (by simpa using hsize)
      (fun u hu ↦ hguard u (List.mem_cons_of_mem _ hu)) rfl (Nat.lt_succ_self values.length)
    have hroom : (v :: values).length + spare = values.length + spare + 1 := by
      rw [List.length_cons]
      omega
    rw [PayloadMemory.parseVector, PayloadMemory.iterInit,
      PayloadMemory.vectorAt_eq hvector.payload, hroom]
    exact hparse
  · rw [hvector.entries, Option.bind_some, List.nil_append, List.getElem?_append_right (by simp)]
    simp
  · have hitems := hvector.releaseItems (m'.vectorRelease values.length) [] rfl
    rw [PayloadMemory.vectorRelease, PayloadMemory.vectorAt_eq hvector.payload]
    simp only [bind, Except.bind, hsize]
    rw [show m'.releaseItems (m'.vectorRelease values.length) (v :: values).length ⟨block, 0⟩ = .ok []
      from hitems]
    rfl

/-! ### The vector that is allocated -/

namespace PayloadMemory

variable {m m' : PayloadMemory} {p size : UInt32} {elts : EntryPtr}

theorem except_bind_eq_ok {α β : Type} {x : Except PayloadFault α} {f : α → Except PayloadFault β}
    {b : β} (h : (x >>= f) = .ok b) : ∃ a, x = .ok a ∧ f a = .ok b := by
  cases x with
  | error fault => exact absurd h (by simp [bind, Except.bind])
  | ok a => exact ⟨a, rfl, h⟩

theorem store_payloads {ptr : EntryPtr} {word : UInt32} (h : m.store ptr word = .ok m') :
    m'.payloads = m.payloads := by
  rw [store] at h
  split at h
  · exact absurd h (by simp)
  · split_ifs at h
    · rw [← Except.ok.inj h]

/-- To fill a vector leaves the payloads. -/
theorem fill_payloads {iter : VectorIter} {words : List UInt32}
    (h : m.fill iter words = .ok m') : m'.payloads = m.payloads := by
  induction words generalizing m iter with
  | nil => rw [← Except.ok.inj h]
  | cons word words ih =>
    obtain ⟨m₁, hstore, h⟩ := except_bind_eq_ok h
    obtain ⟨⟨ret, iter'⟩, -, h⟩ := except_bind_eq_ok h
    exact (ih h).trans (store_payloads hstore)

/-- What is freed last is the pointer to the entries and the vector. -/
theorem vectorRelease_eq {fuel : ℕ} {freed : List FreedPayload}
    (hp : m.payloads p = some (.vector size elts)) (h : m.vectorRelease fuel p = .ok freed) :
    ∃ items, freed = items ++ [.entries elts, .payload p] := by
  cases fuel with
  | zero => exact absurd h (by simp [vectorRelease])
  | succ fuel =>
    rw [vectorRelease, vectorAt_eq hp] at h
    obtain ⟨_, hvector, h⟩ := except_bind_eq_ok h
    obtain rfl := Except.ok.inj hvector
    obtain ⟨items, -, h⟩ := except_bind_eq_ok h
    exact ⟨items, (Except.ok.inj h).symm⟩

/-- **The entries of a new vector** are taken to begin at the guard. -/
theorem payloadVectorAlloc_payloads {block : ℕ} {p' : UInt32}
    (h : m.payloadVectorAlloc (some p) (some block) size = .ok (some (p', m'))) :
    m'.payloads p = some (.vector size ⟨block, size.toNat⟩) := by
  obtain ⟨m₁, -, h⟩ := except_bind_eq_ok h
  obtain ⟨-, rfl⟩ := Prod.mk.inj (Option.some.inj (Except.ok.inj h))
  exact Function.update_self _ _ _

/-- **The second value lies outside**: with two entries or more, the iterator leaves the block right
after the first value, which has overwritten the guard. -/
theorem fill_outside {n block : ℕ} {cells : List UInt32}
    (hp : m.payloads p = some (.vector size ⟨block, n⟩)) (hentries : m.entries block = some cells)
    (hcells : cells.length = n + 1) (hsize : 1 < size.toNat) (first : UInt32)
    (words : List UInt32) :
    m.fill ⟨p, ⟨block, n⟩⟩ (first :: words) = .error .outsideEntries := by
  have hdist : UInt32.ofNat (n + 1) - UInt32.ofNat n < size := by
    have hone : UInt32.ofNat (n + 1) - UInt32.ofNat n = 1 := by
      rw [UInt32.ofNat_add, UInt32.add_comm, UInt32.add_sub_cancel]
      rfl
    rw [hone, UInt32.lt_iff_toNat_lt]
    exact hsize
  generalize hm : PayloadMemory.mk m.payloads
    (Function.update m.entries block (some (cells.set n first))) = m₁
  have hvector : m₁.vectorAt p = .ok (size, ⟨block, n⟩) := by
    rw [← hm]
    exact vectorAt_eq hp
  have hload : m₁.load ⟨block, n + 1⟩ = .error .outsideEntries := by
    rw [← hm]
    simp [load, hcells]
  rw [fill, vectorPut, store_eq hentries (by omega), hm]
  simp only [bind, Except.bind, iterNext, hvector, if_pos hdist, hload]

end PayloadMemory

/-- What is freed is the pointer that was stored, so it had to be the start of the block. -/
theorem CarriesValues.index_eq_zero {m : PayloadMemory} {p size : UInt32} {elts : EntryPtr}
    {block spare : ℕ} {values : List TaggedValue} (h : CarriesValues m p block values spare)
    (hp : m.payloads p = some (.vector size elts)) : elts.index = 0 := by
  obtain ⟨iter, m', fuel, -, hfill, -, -, hrelease⟩ := h
  rw [← PayloadMemory.fill_payloads hfill] at hp
  obtain ⟨items, hfreed⟩ := PayloadMemory.vectorRelease_eq hp hrelease
  obtain rfl : items = [] := List.length_eq_zero_iff.1 (by
    have hlength := congrArg List.length hfreed
    rw [List.length_append] at hlength
    simpa using hlength)
  have hentries := (List.cons.inj hfreed).1
  rw [← FreedPayload.entries.inj hentries]

/-- A vector that is allocated has no entry at the start of its block. -/
theorem RoundTrips.length_eq_zero {m : PayloadMemory} {p : UInt32} {block spare : ℕ}
    {values : List TaggedValue} (h : RoundTrips m p block values spare)
    (hlength : values.length < guardVectorLen) : values.length = 0 := by
  obtain ⟨m', halloc, hcarries⟩ := h
  have hlt : values.length < 2 ^ 32 := hlength.trans (by decide)
  have hindex := hcarries.index_eq_zero (PayloadMemory.payloadVectorAlloc_payloads halloc)
  rwa [UInt32.toNat_ofNat', Nat.mod_eq_of_lt hlt] at hindex

/-- **No list of values makes the round trip.** -/
theorem not_roundTrips (m : PayloadMemory) (p : UInt32) (block : ℕ) (values : List TaggedValue)
    (spare : ℕ) (hsome : 0 < values.length) (hlength : values.length < guardVectorLen) :
    ¬RoundTrips m p block values spare :=
  fun h ↦ hsome.ne' (h.length_eq_zero hlength)

/-- The integer 5. -/
theorem not_roundTrips_integer :
    ¬RoundTrips ⟨fun _ ↦ none, fun _ ↦ none⟩ 16 0 [.integer 5 (by decide)] 0 :=
  not_roundTrips _ _ _ _ _ (by decide) (by decide)

/-- The integers 5 and 7 do not come back. -/
theorem not_roundTrips_vector :
    ¬∀ (m : PayloadMemory) (p : UInt32) (block : ℕ) (values : List TaggedValue) (spare : ℕ),
      0 < values.length → values.length < guardVectorLen → RoundTrips m p block values spare := by
  intro h
  have hround := h ⟨fun _ ↦ none, fun _ ↦ none⟩ 16 0
    [.integer 5 (by decide), .integer 7 (by decide)] 0 (by decide) (by decide)
  exact absurd (hround.length_eq_zero (by decide)) (by decide)

end Mblue
