import Mblue.Common.Pools

/-!
# The pools hand out the element that is free the longest

`poolsFollow_of_steps` — from whatever the memory holds, the pools of messages and of timers are
set up with all their elements free. In every sequence of calls that gives back only elements that
are out, an element is handed out as long as one is free, the one that is free the longest; no
element is handed out twice before it is given back, `count` is how many messages are free, and no
call follows `NULL`.
-/

namespace Mblue

open LinkedRing

variable {ι : Type} [DecidableEq ι] {free : List ι}

/-- The list of a pool with these free elements. -/
def freeLists (free : List ι) : Lists (PoolNode ι) :=
  Lists.start.put .head (free.map .element)

namespace Pool

omit [DecidableEq ι] in
theorem element_mem_iff {i : ι} : PoolNode.element i ∈ free.map .element ↔ i ∈ free :=
  List.mem_map_of_injective fun _ _ h ↦ PoolNode.element.inj h

theorem freeLists_head : freeLists free .head = some (free.map .element) := by
  rw [freeLists, Lists.put_apply, if_pos rfl]

theorem unlinked_of_not_mem {i : ι} (h : i ∉ free) : (freeLists free).Unlinked (.element i) :=
  (Lists.unlinked_start _).put (mt element_mem_iff.1 h)

/-- The free elements are listed once. -/
theorem nodup_of_carries {links : Links (PoolNode ι)} (h : Carries links (freeLists free)) :
    free.Nodup :=
  ((h.ring _ _ freeLists_head).nodup_tail).of_map

theorem freeLists_put (free' : List ι) (x : PoolNode ι) :
    ((freeLists free).drop x).put .head (free'.map .element) = freeLists free' := by
  funext y
  simp only [freeLists, Lists.put_apply, Lists.drop_apply, Lists.start]
  split
  · rfl
  · split <;> rfl

/-- Adding an element that is not free. -/
theorem addTail (i : ι) {links : Links (PoolNode ι)} (h : Carries links (freeLists free))
    (hi : i ∉ free) : ∃ links', listAddTail (.element i) .head links = some links' ∧
      Carries links' (freeLists (free ++ [i])) := by
  have hne : PoolNode.element i ≠ .head := fun heq ↦ by cases heq
  obtain ⟨links', hadd, hcarries⟩ := h.listAddTail (unlinked_of_not_mem hi) hne freeLists_head
  rw [← List.map_singleton, ← List.map_append, freeLists_put] at hcarries
  exact ⟨links', hadd, hcarries⟩

/-- Taking out the first free element, and wiping it. -/
theorem takeFirst_cons {i : ι} {rest : List ι} {links : Links (PoolNode ι)}
    (h : Carries links (freeLists (i :: rest))) : ∃ links', takeFirst links = some (i, links') ∧
      Carries (links'.clear (.element i)) (freeLists rest) := by
  have hhead : freeLists (i :: rest) .head = some ([] ++ .element i :: rest.map .element) :=
    freeLists_head
  obtain ⟨links', hdel, hcarries⟩ := h.listDel hhead
  have hnext : links.next .head = some (.element i) := (h.ring _ _ freeLists_head).span.next_eq
  have hlists : (freeLists (i :: rest)).put .head ([] ++ rest.map .element) = freeLists rest :=
    Lists.put_put ..
  rw [hlists] at hcarries
  refine ⟨links', by rw [takeFirst, hnext]; simp only [hdel, Option.map_some], ?_⟩
  have hnot : i ∉ rest := (List.nodup_cons.1 (nodup_of_carries h)).1
  exact hcarries.clear (unlinked_of_not_mem hnot) rfl

theorem carries_foldlM {done rest : List ι} {links : Links (PoolNode ι)}
    (h : Carries links (freeLists done)) (hnodup : (done ++ rest).Nodup) :
    ∃ links', rest.foldlM (fun links i ↦ listAddTail (.element i) .head links) links =
      some links' ∧ Carries links' (freeLists (done ++ rest)) := by
  induction rest generalizing done links with
  | nil => exact ⟨links, rfl, by rwa [List.append_nil]⟩
  | cons i rest ih =>
    have hi : i ∉ done := fun hi ↦
      (List.nodup_append'.1 hnodup).2.2 hi List.mem_cons_self
    obtain ⟨links₁, hadd, h₁⟩ := addTail i h hi
    rw [List.append_cons] at hnodup ⊢
    obtain ⟨links₂, hfold, h₂⟩ := ih h₁ hnodup
    exact ⟨links₂, by rw [List.foldlM_cons, hadd]; exact hfold, h₂⟩

theorem carries_fill {elements : List ι} (hnodup : elements.Nodup) (links : Links (PoolNode ι)) :
    ∃ links', fill elements links = some links' ∧ Carries links' (freeLists elements) := by
  have hempty : Carries (links.join .head .head) (freeLists ([] : List ι)) :=
    (carries_start links).initHead (Lists.unlinked_start _)
  obtain ⟨links', hfold, h⟩ := carries_foldlM hempty (by rwa [List.nil_append])
  exact ⟨links', hfold, h⟩

/-! ### The two pools -/

/-- What the calls of a pool do, where `Good free list` says that `list` has the free elements
`free`. -/
structure Serves (get : Pool ι → Option (Option ι × Pool ι)) (put : Pool ι → ι → Option (Pool ι))
    (Good : List ι → Pool ι → Prop) : Prop where
  get_cons (i : ι) (rest : List ι) (list : Pool ι) (h : Good (i :: rest) list) :
    ∃ list', get list = some (some i, list') ∧ Good rest list'
  get_nil (list : Pool ι) (h : Good [] list) : get list = some (none, list)
  put_free (free : List ι) (i : ι) (list : Pool ι) (h : Good free list) (hi : i ∉ free) :
    ∃ list', put list i = some list' ∧ Good (free ++ [i]) list'

omit [DecidableEq ι] in
/-- What holds of the calls holds of a sequence of them. -/
theorem Serves.calls {get : Pool ι → Option (Option ι × Pool ι)}
    {put : Pool ι → ι → Option (Pool ι)} {Good : List ι → Pool ι → Prop} (hs : Serves get put Good)
    {list : Pool ι} {free' : List ι} {cs : List (Call ι)} {rs : List (Option ι)}
    (h : Good free list) (hsteps : FreeSteps free cs rs free') :
    ∃ list', Pool.calls get put list cs = some (rs, list') ∧ Good free' list' := by
  induction hsteps generalizing list with
  | nil => exact ⟨list, rfl, h⟩
  | cons hstep _ ih =>
    -- the call, and then the others
    cases hstep with
    | get hfree =>
      obtain ⟨list₁, hget, h₁⟩ := hs.get_cons _ _ list (hfree ▸ h)
      obtain ⟨list₂, hcalls, h₂⟩ := ih h₁
      exact ⟨list₂, by simp [Pool.calls, call, hget, hcalls], h₂⟩
    | empty hfree =>
      obtain ⟨list₂, hcalls, h₂⟩ := ih (hfree ▸ h)
      exact ⟨list₂, by simp [Pool.calls, call, hs.get_nil list (hfree ▸ h), hcalls], h₂⟩
    | put hi =>
      obtain ⟨list₁, hput, h₁⟩ := hs.put_free _ _ list h hi
      obtain ⟨list₂, hcalls, h₂⟩ := ih h₁
      exact ⟨list₂, by simp [Pool.calls, call, hput, hcalls], h₂⟩

/-- The list of free messages, with their number. -/
structure MessagesFree (free : List MsgId) (list : Pool MsgId) : Prop where
  carries : Carries list.links (freeLists free)
  count : list.count = free.length

theorem serves_messages : Serves mblueMessageAlloc mblueMessagePut MessagesFree where
  get_cons i rest list h := by
    obtain ⟨links', htake, hcarries⟩ := takeFirst_cons h.carries
    have hcount : list.count ≠ 0 := by
      rw [h.count, List.length_cons]
      omega
    refine ⟨_, by rw [mblueMessageAlloc, mblueMessageGet, if_pos hcount, htake]; rfl, hcarries, ?_⟩
    show list.count - 1 = rest.length
    rw [h.count, List.length_cons]
    omega
  get_nil list h := by
    have hcount : list.count = 0 := h.count
    rw [mblueMessageAlloc, mblueMessageGet, if_neg (not_not.2 hcount)]
    rfl
  put_free free i list h hi := by
    obtain ⟨links', hadd, hcarries⟩ := addTail i h.carries hi
    refine ⟨_, by rw [mblueMessagePut, hadd]; rfl, hcarries, ?_⟩
    show list.count + 1 = (free ++ [i]).length
    rw [h.count, List.length_append, List.length_singleton]
    omega

/-- The list of free timers. -/
structure TimersFree (free : List TimerId) (list : Pool TimerId) : Prop where
  carries : Carries list.links (freeLists free)

theorem serves_timers : Serves timerAlloc timerPut TimersFree where
  get_cons i rest list h := by
    obtain ⟨links', htake, hcarries⟩ := takeFirst_cons h.carries
    have hsome : (!listEmpty .head list.links) = true := by
      rw [h.carries.listEmpty_eq freeLists_head]
      rfl
    exact ⟨_, by rw [timerAlloc, timerGet, if_pos hsome, htake]; rfl, ⟨hcarries⟩⟩
  get_nil list h := by
    have hempty : ¬(!listEmpty .head list.links) = true := by
      rw [h.carries.listEmpty_eq freeLists_head]
      decide
    rw [timerAlloc, timerGet, if_neg hempty]
    rfl
  put_free free i list h hi := by
    obtain ⟨links', hadd, hcarries⟩ := addTail i h.carries hi
    exact ⟨_, by rw [timerPut, hadd]; rfl, ⟨hcarries⟩⟩

end Pool

/-- Set up and called so, the pool of messages hands out `rs`, and `free` are free then. -/
def MessagesFollow (junk : Pool MsgId) (cs : List (Pool.Call MsgId)) (rs : List (Option MsgId))
    (free : List MsgId) : Prop :=
  ∃ list₀ list, junk.mblueMessageInit = some list₀ ∧
    list₀.calls Pool.mblueMessageAlloc Pool.mblueMessagePut cs = some (rs, list) ∧
    Ring list.links .head (free.map .element) ∧ list.count = free.length ∧ free.Nodup

/-- Set up and called so, the pool of timers hands out `rs`, and `free` are free then. -/
def TimersFollow (junk : Pool TimerId) (cs : List (Pool.Call TimerId))
    (rs : List (Option TimerId)) (free : List TimerId) : Prop :=
  ∃ list₀ list, junk.timerListInit = some list₀ ∧
    list₀.calls Pool.timerAlloc Pool.timerPut cs = some (rs, list) ∧
    Ring list.links .head (free.map .element) ∧ free.Nodup

/-- **The pools serve every sequence of calls.** -/
theorem poolsFollow_of_steps (messages : Pool MsgId) (timers : Pool TimerId)
    {cs : List (Pool.Call MsgId)} {rs : List (Option MsgId)} {free : List MsgId}
    (h : FreeSteps (List.finRange mblueMaxMessageNum) cs rs free)
    {cs' : List (Pool.Call TimerId)} {rs' : List (Option TimerId)} {free' : List TimerId}
    (h' : FreeSteps (List.finRange maxTimerNum) cs' rs' free') :
    MessagesFollow messages cs rs free ∧ TimersFollow timers cs' rs' free' := by
  constructor
  · obtain ⟨links, hfill, hcarries⟩ :=
      Pool.carries_fill (List.nodup_finRange mblueMaxMessageNum) messages.links
    have hfree : Pool.MessagesFree (List.finRange mblueMaxMessageNum)
        ⟨mblueMaxMessageNum, links⟩ := ⟨hcarries, by rw [List.length_finRange]⟩
    obtain ⟨list, hcalls, hlist⟩ := Pool.serves_messages.calls hfree h
    refine ⟨_, list, by rw [Pool.mblueMessageInit, hfill]; rfl, hcalls, ?_, hlist.count, ?_⟩
    · exact hlist.carries.ring _ _ Pool.freeLists_head
    · exact Pool.nodup_of_carries hlist.carries
  · obtain ⟨links, hfill, hcarries⟩ :=
      Pool.carries_fill (List.nodup_finRange maxTimerNum) timers.links
    have hfree : Pool.TimersFree (List.finRange maxTimerNum) { timers with links := links } :=
      ⟨hcarries⟩
    obtain ⟨list, hcalls, hlist⟩ := Pool.serves_timers.calls hfree h'
    refine ⟨_, list, by rw [Pool.timerListInit, hfill]; rfl, hcalls, ?_, ?_⟩
    · exact hlist.carries.ring _ _ Pool.freeLists_head
    · exact Pool.nodup_of_carries hlist.carries

/-- Two messages are taken and one is given back; a timer is taken and given back. -/
theorem poolsFollow_two : ∃ free free',
    MessagesFollow ⟨0, fun _ ↦ none, fun _ ↦ none⟩ [.get, .get, .put 0] [some 0, some 1, none]
      free ∧
    TimersFollow ⟨0, fun _ ↦ none, fun _ ↦ none⟩ [.get, .put ⟨0, by decide⟩]
      [some ⟨0, by decide⟩, none] free' := by
  have hmessages : FreeSteps (List.finRange mblueMaxMessageNum) [.get, .get, .put 0]
      [some 0, some 1, none] ((List.finRange mblueMaxMessageNum).drop 2 ++ [0]) :=
    .cons (.get rfl) (.cons (.get rfl) (.cons (.put (by decide)) .nil))
  have htimers : FreeSteps (List.finRange maxTimerNum) [.get, .put ⟨0, by decide⟩]
      [some ⟨0, by decide⟩, none] ((List.finRange maxTimerNum).drop 1 ++ [⟨0, by decide⟩]) :=
    .cons (.get rfl) (.cons (.put (by decide)) .nil)
  exact ⟨_, _, poolsFollow_of_steps _ _ hmessages htimers⟩

end Mblue
