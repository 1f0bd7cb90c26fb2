import Mblue.Common.ListHead

/-!
# Lists as lists

What the lists of `mblue_list.h` are for: `Lists` gives each node that is the head of a list the
entries of that list, in order, and `Lists.Step` what an operation does to them and what it returns.
A step also says when an operation may be called. A node that is put into a list is not an entry of
one (`Unlinked`), though it may be a head, whose list is then lost; a node that is taken out is an
entry.

`Carries` ties the lists to the pointers: from each head a ring leads over its entries, and no
entry is a head. That two lists have no node in common follows (`Carries.apart`), since a node
lies on one ring. `Carries.step` is the refinement: an operation that may be called has a result,
returns what the step says, and its pointers carry the lists after it.
-/

namespace Mblue

open LinkedRing

variable {α : Type} [DecidableEq α]

/-- The entries of the list that a node is the head of, if it is one. -/
abbrev Lists (α : Type) := α → Option (List α)

namespace Lists

/-- The node is not an entry of a list. -/
def Unlinked (L : Lists α) (x : α) : Prop :=
  ∀ h l, L h = some l → x ∉ l

/-- No node is the head of a list. -/
def start : Lists α := fun _ ↦ none

/-- The node becomes the head of a list. -/
def put (L : Lists α) (h : α) (l : List α) : Lists α := Function.update L h (some l)

/-- The node is no longer the head of a list. -/
def drop (L : Lists α) (h : α) : Lists α := Function.update L h none

@[grind =] theorem put_apply (L : Lists α) (h k : α) (l : List α) :
    L.put h l k = if k = h then some l else L k := Function.update_apply ..

@[grind =] theorem drop_apply (L : Lists α) (h k : α) :
    L.drop h k = if k = h then none else L k := Function.update_apply ..

theorem put_eq_self {L : Lists α} {h : α} {l : List α} (hl : L h = some l) : L.put h l = L :=
  Function.update_eq_self_iff.2 hl.symm

theorem put_put (L : Lists α) (h : α) (l l' : List α) : (L.put h l).put h l' = L.put h l' :=
  Function.update_idem ..

theorem drop_eq_self {L : Lists α} {h : α} (hl : L h = none) : L.drop h = L :=
  Function.update_eq_self_iff.2 hl.symm

omit [DecidableEq α] in
theorem unlinked_start (x : α) : (start : Lists α).Unlinked x :=
  fun _ _ h ↦ absurd h (by simp [start])

theorem Unlinked.put {L : Lists α} {x h : α} {l : List α} (hx : L.Unlinked x) (hl : x ∉ l) :
    (L.put h l).Unlinked x := by
  intro k l' hk
  have hxk := hx k
  grind

theorem Unlinked.drop {L : Lists α} {x h : α} (hx : L.Unlinked x) : (L.drop h).Unlinked x := by
  intro k l' hk
  have hxk := hx k
  grind

/-- What an operation does to the lists, and what it returns. -/
inductive Step (L : Lists α) : ListCall α → Option Bool → Lists α → Prop
  | init {list : α} (hlist : L.Unlinked list) : Step L (.init list) none (L.put list [])
  | add {x h : α} {l : List α} (hx : L.Unlinked x) (hne : x ≠ h) (hl : L h = some l) :
      Step L (.add x h) none ((L.drop x).put h (x :: l))
  | addTail {x h : α} {l : List α} (hx : L.Unlinked x) (hne : x ≠ h) (hl : L h = some l) :
      Step L (.addTail x h) none ((L.drop x).put h (l ++ [x]))
  | del {x h : α} {l₁ l₂ : List α} (hl : L h = some (l₁ ++ x :: l₂)) :
      Step L (.del x) none (L.put h (l₁ ++ l₂))
  | delInit {x h : α} {l₁ l₂ : List α} (hl : L h = some (l₁ ++ x :: l₂)) :
      Step L (.delInit x) none ((L.put h (l₁ ++ l₂)).put x [])
  | replace {x y h : α} {l₁ l₂ : List α} (hl : L h = some (l₁ ++ x :: l₂)) (hy : L.Unlinked y)
      (hne : y ≠ h) : Step L (.replace x y) none ((L.drop y).put h (l₁ ++ y :: l₂))
  | replaceHead {x y : α} {l : List α} (hl : L x = some l) (hy : L.Unlinked y) (hne : y ≠ x) :
      Step L (.replace x y) none ((L.drop x).put y l)
  | replaceInit {x y h : α} {l₁ l₂ : List α} (hl : L h = some (l₁ ++ x :: l₂))
      (hy : L.Unlinked y) (hne : y ≠ h) :
      Step L (.replaceInit x y) none (((L.drop y).put h (l₁ ++ y :: l₂)).put x [])
  | replaceInitHead {x y : α} {l : List α} (hl : L x = some l) (hy : L.Unlinked y) (hne : y ≠ x) :
      Step L (.replaceInit x y) none ((L.put x []).put y l)
  | move {x h k : α} {l l₁ l₂ : List α} (hl : L h = some (l₁ ++ x :: l₂))
      (hk : L.put h (l₁ ++ l₂) k = some l) :
      Step L (.move x k) none ((L.put h (l₁ ++ l₂)).put k (x :: l))
  | moveTail {x h k : α} {l l₁ l₂ : List α} (hl : L h = some (l₁ ++ x :: l₂))
      (hk : L.put h (l₁ ++ l₂) k = some l) :
      Step L (.moveTail x k) none ((L.put h (l₁ ++ l₂)).put k (l ++ [x]))
  | cut {list h x : α} {l₁ l₂ : List α} (hl : L h = some (l₁ ++ x :: l₂))
      (hlist : L.Unlinked list) (hne : list ≠ h) :
      Step L (.cutPosition list h x) none ((L.put h l₂).put list (l₁ ++ [x]))
  | cutHead {list h x : α} {l : List α} (hl : L h = some (x :: l)) (hlist : L.Unlinked list)
      (hne : list ≠ h) : Step L (.cutPosition list h h) none (L.put list [])
  /-- Nothing is cut off an empty list, and `list` is not initialised. -/
  | cutEmpty {list h x : α} (hl : L h = some []) : Step L (.cutPosition list h x) none L
  | splice {list h x : α} {l l' : List α} (hl : L list = some (x :: l)) (hh : L h = some l')
      (hne : list ≠ h) : Step L (.splice list h) none ((L.drop list).put h (x :: l ++ l'))
  | spliceEmpty {list h : α} (hl : L list = some []) : Step L (.splice list h) none L
  | spliceTail {list h x : α} {l l' : List α} (hl : L list = some (x :: l)) (hh : L h = some l')
      (hne : list ≠ h) : Step L (.spliceTail list h) none ((L.drop list).put h (l' ++ x :: l))
  | spliceTailEmpty {list h : α} (hl : L list = some []) : Step L (.spliceTail list h) none L
  | spliceInit {list h : α} {l l' : List α} (hl : L list = some l) (hh : L h = some l')
      (hne : list ≠ h) : Step L (.spliceInit list h) none ((L.put list []).put h (l ++ l'))
  | spliceTailInit {list h : α} {l l' : List α} (hl : L list = some l) (hh : L h = some l')
      (hne : list ≠ h) : Step L (.spliceTailInit list h) none ((L.put list []).put h (l' ++ l))
  | isLast {x h : α} {l₁ l₂ : List α} (hl : L h = some (l₁ ++ x :: l₂)) :
      Step L (.isLast x h) (some l₂.isEmpty) L
  | empty {h : α} {l : List α} (hl : L h = some l) : Step L (.empty h) (some l.isEmpty) L
  | emptyCareful {h : α} {l : List α} (hl : L h = some l) :
      Step L (.emptyCareful h) (some l.isEmpty) L
  | isSingular {h : α} {l : List α} (hl : L h = some l) :
      Step L (.isSingular h) (some (l.length == 1)) L

/-- What a sequence of operations does to the lists, and what they return. -/
inductive Steps : Lists α → List (ListCall α) → List (Option Bool) → Lists α → Prop
  | nil {L : Lists α} : Steps L [] [] L
  | cons {L L' L'' : Lists α} {c : ListCall α} {r : Option Bool} {cs : List (ListCall α)}
      {rs : List (Option Bool)} (h : Step L c r L') (hs : Steps L' cs rs L'') :
      Steps L (c :: cs) (r :: rs) L''

end Lists

/-- The pointers lead from each head over its entries, and no entry is a head. -/
structure Carries (m : Links α) (L : Lists α) : Prop where
  ring : ∀ h l, L h = some l → Ring m h l
  entry : ∀ h l, L h = some l → ∀ x ∈ l, L x = none

omit [DecidableEq α] in
/-- Without lists the pointers are as they like. -/
theorem carries_start (m : Links α) : Carries m .start :=
  ⟨fun _ _ h ↦ absurd h (by simp [Lists.start]), fun _ _ h ↦ absurd h (by simp [Lists.start])⟩

namespace Carries

variable {m m' : Links α} {L L' : Lists α} {h k x y : α} {l l' l₁ l₂ : List α} {s : List α}

omit [DecidableEq α] in
/-- Two lists have no node in common. -/
theorem apart (hm : Carries m L) (hh : L h = some l) (hk : L k = some l') (hne : k ≠ h) :
    (h :: l).Disjoint (k :: l') := fun a ha ha' ↦ by
  rcases List.mem_cons.1 ((hm.ring h l hh).mem_of_mem (hm.ring k l' hk) ha ha') with heq | hmem
  · exact hne heq
  · exact absurd ((hm.entry h l hh k hmem).symm.trans hk) (by simp)

omit [DecidableEq α] in
/-- What remains to be shown when pointers and lists have changed at some nodes. -/
theorem change (hm : Carries m L) (hsame : Changes s m m') (hL : ∀ a, a ∉ s → L' a = L a)
    (hold : ∀ k l, L k = some l → k ∉ s → ∀ a ∈ l, a ∉ s)
    (hnew : ∀ k ∈ s, ∀ l, L' k = some l → Ring m' k l ∧ ∀ x ∈ l, L' x = none) :
    Carries m' L' := by
  have hkept {k : α} {l : List α} (hk : L' k = some l) (hs : k ∉ s) : L k = some l := hL k hs ▸ hk
  constructor
  · intro k l hk
    by_cases hs : k ∈ s
    · exact (hnew k hs l hk).1
    · refine (hm.ring k l (hkept hk hs)).change hsame fun a ha ↦ ?_
      rcases List.mem_cons.1 ha with rfl | hmem
      · exact hs
      · exact hold k l (hkept hk hs) hs a hmem
  · intro k l hk x hx
    by_cases hs : k ∈ s
    · exact (hnew k hs l hk).2 x hx
    · rw [hL x (hold k l (hkept hk hs) hs x hx)]
      exact hm.entry k l (hkept hk hs) x hx

omit [DecidableEq α] in
/-- An entry of one list is no node of another one. -/
theorem outside (hm : Carries m L) (hl : L h = some l) (hk : L k = some l') (hne : k ≠ h)
    (ha : x ∈ l') : x ∉ h :: l :=
  fun hx ↦ hm.apart hl hk hne hx (List.mem_cons_of_mem _ ha)

/-! ### Single changes -/

/-- A node that is not in a list becomes the head of one. -/
theorem initHead (hm : Carries m L) (hx : L.Unlinked x) :
    Carries (m.join x x) (L.put x []) := by
  refine hm.change (s := [x]) ((Changes.refl _ m).join (by simp) (by simp)) ?_ ?_ ?_
  · grind
  · intro k l hk _ a ha
    exact fun hax ↦ hx k l hk (List.mem_singleton.1 hax ▸ ha)
  · intro k hk l hl
    have hring := Ring.join_self m x
    grind

/-- Nothing depends on the pointers of a node that is in no list. -/
theorem clear (hm : Carries m L) (hx : L.Unlinked x) (hnone : L x = none) :
    Carries (m.clear x) L := by
  refine hm.change (s := [x]) ((Changes.refl _ m).clear (by simp)) (fun _ _ ↦ rfl) ?_ ?_
  · intro k l hk _ a ha
    exact fun hax ↦ hx k l hk (List.mem_singleton.1 hax ▸ ha)
  · grind

/-- A list changes, with a node that was in none. -/
theorem change_list (hm : Carries m L) (hl : L h = some l) (hx : L.Unlinked x) (hne : x ≠ h)
    (hsame : Changes (x :: h :: l) m m') (hr : Ring m' h l') (hsub : l' ⊆ x :: l) :
    Carries m' ((L.drop x).put h l') := by
  have hentry := hm.entry h l hl
  have hnot := hr.not_mem
  refine hm.change hsame ?_ ?_ ?_
  · grind
  · intro k l₂ hk hks a ha
    have hout := hm.outside hl hk (by grind) ha
    have hxk := hx k l₂ hk
    grind
  · intro k hk l₂ hl₂
    have hmem (y : α) (hy : y ∈ l') : y ∈ x :: l := hsub hy
    grind

/-- A list loses an entry. -/
theorem unlink (hm : Carries m L) (hl : L h = some (l₁ ++ x :: l₂)) :
    Carries (m.join (l₁.getLastD h) (l₂.headD h)) (L.put h (l₁ ++ l₂)) := by
  have hr := (hm.ring h _ hl).remove
  have hnot := (hm.ring h _ hl).not_mem
  have hentry := hm.entry h _ hl
  have hfirst := headD_mem l₂ h
  have hlast := getLastD_mem l₁ h
  refine hm.change (s := h :: (l₁ ++ x :: l₂))
    ((Changes.refl _ m).join (by grind) (by grind)) ?_ ?_ ?_
  · grind
  · intro k l' hk hks a ha
    exact hm.outside hl hk (by grind) ha
  · grind

/-- An entry that was taken out of its list is not in another one. -/
theorem unlinked_unlink (hm : Carries m L) (hl : L h = some (l₁ ++ x :: l₂)) :
    (L.put h (l₁ ++ l₂)).Unlinked x := by
  intro k l hk hx
  have hnodup := (hm.ring h _ hl).nodup
  rw [Lists.put_apply] at hk
  split at hk
  · grind
  · next hne => exact hm.outside hl hk hne hx (by simp)

/-- A list gets another head. -/
theorem rehead (hm : Carries m L) (hl : L x = some l) (hy : L.Unlinked y) (hne : y ≠ x)
    (hsame : Changes (y :: x :: l) m m') (hr : Ring m' y l) :
    Carries m' ((L.drop x).put y l) := by
  have hentry := hm.entry x l hl
  have hnot := hr.not_mem
  refine hm.change hsame ?_ ?_ ?_
  · grind
  · intro k l₂ hk hks a ha
    have hout := hm.outside hl hk (by grind) ha
    have hyk := hy k l₂ hk
    grind
  · grind

/-- A list is cut in two. -/
theorem cut (hm : Carries m L) (hl : L h = some (l₁ ++ x :: l₂)) (hy : L.Unlinked y)
    (hne : y ≠ h) :
    Carries (((m.join y (l₁.headD x)).join x y).join h (l₂.headD h))
      ((L.put h l₂).put y (l₁ ++ [x])) := by
  have hr := hm.ring h _ hl
  have hnodup := hr.nodup
  have hentry := hm.entry h _ hl
  have hfirst := headD_mem l₁ x
  have hnext := headD_mem l₂ h
  have hyl := hy h _ hl
  obtain ⟨hcut, hrest⟩ := hr.cut (fun hmem ↦ (List.mem_cons.1 hmem).elim hne hyl)
  refine hm.change (s := y :: h :: (l₁ ++ x :: l₂)) ?_ ?_ ?_ ?_
  · exact (((Changes.refl _ m).join (by grind) (by grind)).join (by grind) (by grind)).join
      (by grind) (by grind)
  · grind
  · intro k l hk hks a ha
    have hout := hm.outside hl hk (by grind) ha
    have hyk := hy k l hk
    grind
  · grind

/-- The entries of one list go to another one. -/
theorem meld (hm : Carries m L) (hl : L k = some l) (hh : L h = some l') (hne : k ≠ h)
    (hsame : Changes (h :: k :: (l' ++ l)) m m') {l'' : List α} (hr : Ring m' h l'')
    (hsub : l'' ⊆ l' ++ l) : Carries m' ((L.drop k).put h l'') := by
  have hentry := hm.entry k l hl
  have hentry' := hm.entry h l' hh
  have hnot := hr.not_mem
  refine hm.change hsame ?_ ?_ ?_
  · grind
  · intro k' l₂ hk' hks a ha
    have hout := hm.outside hl hk' (by grind) ha
    have hout' := hm.outside hh hk' (by grind) ha
    grind
  · intro k' hk' l₂ hl₂
    have hmem (y : α) (hy : y ∈ l'') : y ∈ l' ++ l := hsub hy
    grind

/-! ### The operations -/

omit [DecidableEq α] in
/-- The nodes around an entry. -/
theorem around (hm : Carries m L) (hl : L h = some (l₁ ++ x :: l₂)) :
    m.prev x = some (l₁.getLastD h) ∧ m.next x = some (l₂.headD h) :=
  ⟨(hm.ring h _ hl).split.1.prev_eq, (hm.ring h _ hl).split.2.next_eq⟩

theorem listDelBetween_eq (hm : Carries m L) (hl : L h = some (l₁ ++ x :: l₂)) :
    listDelBetween (m.prev x) (m.next x) m = some (m.join (l₁.getLastD h) (l₂.headD h)) := by
  rw [(hm.around hl).1, (hm.around hl).2, Mblue.listDelBetween_eq]

theorem listAdd (hm : Carries m L) (hx : L.Unlinked x) (hne : x ≠ h) (hl : L h = some l) :
    ∃ m', Mblue.listAdd x h m = some m' ∧ Carries m' ((L.drop x).put h (x :: l)) := by
  have hr := hm.ring h l hl
  have hmem : x ∉ h :: l := fun hmem ↦ (List.mem_cons.1 hmem).elim hne (hx h l hl)
  have hfirst := headD_mem l h
  refine ⟨(m.join x (l.headD h)).join h x, ?_, hm.change_list hl hx hne ?_ (hr.cons hmem) ?_⟩
  · rw [Mblue.listAdd, hr.span.next_eq, listAddBetween_eq]
  · exact ((Changes.refl _ m).join (by grind) (by grind)).join (by grind) (by grind)
  · exact List.Subset.refl _

theorem listAddTail (hm : Carries m L) (hx : L.Unlinked x) (hne : x ≠ h) (hl : L h = some l) :
    ∃ m', Mblue.listAddTail x h m = some m' ∧ Carries m' ((L.drop x).put h (l ++ [x])) := by
  have hr := hm.ring h l hl
  have hmem : x ∉ h :: l := fun hmem ↦ (List.mem_cons.1 hmem).elim hne (hx h l hl)
  have hlast := getLastD_mem l h
  refine ⟨(m.join x h).join (l.getLastD h) x, ?_, hm.change_list hl hx hne ?_ (hr.concat hmem) ?_⟩
  · rw [Mblue.listAddTail, hr.span.prev_eq, listAddBetween_eq]
  · exact ((Changes.refl _ m).join (by grind) (by grind)).join (by grind) (by grind)
  · grind

theorem listDel (hm : Carries m L) (hl : L h = some (l₁ ++ x :: l₂)) :
    ∃ m', Mblue.listDel x m = some m' ∧ Carries m' (L.put h (l₁ ++ l₂)) := by
  have hx : L x = none := hm.entry h _ hl x (by simp)
  refine ⟨_, listDel_eq (hm.around hl).1 (hm.around hl).2, ?_⟩
  exact (hm.unlink hl).clear (hm.unlinked_unlink hl) (by grind)

theorem listDelInit (hm : Carries m L) (hl : L h = some (l₁ ++ x :: l₂)) :
    ∃ m', Mblue.listDelInit x m = some m' ∧ Carries m' ((L.put h (l₁ ++ l₂)).put x []) :=
  ⟨_, listDelInit_eq (hm.around hl).1 (hm.around hl).2,
    (hm.unlink hl).initHead (hm.unlinked_unlink hl)⟩

theorem listReplace (hm : Carries m L) (hl : L h = some (l₁ ++ x :: l₂)) (hy : L.Unlinked y)
    (hne : y ≠ h) :
    ∃ m', Mblue.listReplace x y m = some m' ∧
      Carries m' ((L.drop y).put h (l₁ ++ y :: l₂)) := by
  have hr := hm.ring h _ hl
  have hnodup := hr.nodup
  have hfirst := headD_mem l₂ h
  have hlast := getLastD_mem l₁ h
  have hyl := hy h _ hl
  have hprev : (m.join y (l₂.headD h)).prev x = some (l₁.getLastD h) := by
    rw [Links.prev_join (by grind), (hm.around hl).1]
  refine ⟨_, listReplace_eq (hm.around hl).2 hprev, ?_⟩
  refine hm.change_list hl hy hne ?_ (hr.substitute (by grind)) (by grind)
  exact ((Changes.refl _ m).join (by grind) (by grind)).join (by grind) (by grind)

theorem listReplace_head (hm : Carries m L) (hl : L x = some l) (hy : L.Unlinked y)
    (hne : y ≠ x) :
    ∃ m', Mblue.listReplace x y m = some m' ∧ Carries m' ((L.drop x).put y l) := by
  have hr := hm.ring x l hl
  have hyl := hy x l hl
  cases l with
  | nil =>
    -- the new node points at the old one first, and then at itself
    have hprev : (m.join y x).prev x = some y := Links.prev_join_self
    refine ⟨_, listReplace_eq hr.span.next_eq hprev, hm.rehead hl hy hne ?_ (.join_self _ y)⟩
    exact ((Changes.refl _ m).join (by simp) (by simp)).join (by simp) (by simp)
  | cons z l =>
    have hnodup := hr.nodup
    have hlast := getLastD_mem l z
    have hprev : (m.join y z).prev x = some (l.getLastD z) := by
      rw [Links.prev_join (by grind), hr.span.prev_eq, List.getLastD_cons]
    refine ⟨_, listReplace_eq hr.span.next_eq hprev, hm.rehead hl hy hne ?_ (hr.rehead ?_)⟩
    · exact ((Changes.refl _ m).join (by grind) (by grind)).join (by grind) (by grind)
    · exact fun hmem ↦ (List.mem_cons.1 hmem).elim hne hyl

theorem listEmpty_eq (hm : Carries m L) (hl : L h = some l) :
    Mblue.listEmpty h m = l.isEmpty := by
  have hnot := (hm.ring h l hl).not_mem
  rw [Mblue.listEmpty, (hm.ring h l hl).span.next_eq]
  cases l with
  | nil => simp
  | cons x l =>
    have hne : x ≠ h := fun heq ↦ hnot (heq ▸ List.mem_cons_self)
    simp [hne]

theorem listEmptyCareful_eq (hm : Carries m L) (hl : L h = some l) :
    Mblue.listEmptyCareful h m = l.isEmpty := by
  have hempty := hm.listEmpty_eq hl
  rw [Mblue.listEmpty] at hempty
  rw [Mblue.listEmptyCareful, hempty]
  cases l with
  | nil => rw [(hm.ring h [] hl).span.next_eq, (hm.ring h [] hl).span.prev_eq]; simp
  | cons x l => rfl

theorem listIsSingular_eq (hm : Carries m L) (hl : L h = some l) :
    Mblue.listIsSingular h m = (l.length == 1) := by
  have hr := hm.ring h l hl
  have hnodup := hr.nodup_tail
  rw [Mblue.listIsSingular, hm.listEmpty_eq hl, hr.span.next_eq, hr.span.prev_eq]
  match l with
  | [] => rfl
  | [x] => simp
  | x :: y :: l =>
    have hlast := getLastD_mem l y
    rw [List.getLastD_cons, List.getLastD_cons, List.headD_cons]
    have hne : (some x == some (l.getLastD y)) = false :=
      beq_eq_false_iff_ne.2 fun heq ↦ (List.nodup_cons.1 hnodup).1 (Option.some.inj heq ▸ hlast)
    rw [hne, Bool.and_false]
    rfl

theorem listIsLast_eq (hm : Carries m L) (hl : L h = some (l₁ ++ x :: l₂)) :
    Mblue.listIsLast x h m = l₂.isEmpty := by
  have hnot := (hm.ring h _ hl).not_mem
  rw [Mblue.listIsLast, (hm.around hl).2]
  cases l₂ with
  | nil => simp
  | cons y l₂ =>
    have hne : y ≠ h := by grind
    simp [hne]

theorem listCutPosition (hm : Carries m L) (hl : L h = some (l₁ ++ x :: l₂))
    (hy : L.Unlinked y) (hne : y ≠ h) :
    ∃ m', Mblue.listCutPosition y h x m = some m' ∧
      Carries m' ((L.put h l₂).put y (l₁ ++ [x])) := by
  have hr := hm.ring h _ hl
  have hxh : x ≠ h := by
    have hnot := hr.not_mem
    grind
  have hfirst : (l₁ ++ x :: l₂).headD h = l₁.headD x := by cases l₁ <;> rfl
  refine ⟨_, ?_, hm.cut hl hy hne⟩
  rw [Mblue.listCutPosition, hm.listEmpty_eq hl, if_neg (by simp), if_neg, if_neg hxh,
    listCutBetween_eq hr.span.next_eq (hm.around hl).2, hfirst]
  -- the only entry of a list with one entry is `x`
  rw [hm.listIsSingular_eq hl, hr.span.next_eq]
  cases l₁ with
  | nil => simp
  | cons z l₁ => simp

theorem listSpliceBetween_eq {z : α} (hm : Carries m L) (hl : L k = some (z :: l)) (p n : α) :
    listSpliceBetween k (some p) (some n) m = some ((m.join p z).join (l.getLastD z) n) := by
  have hr := hm.ring k _ hl
  have hlast := hr.span.prev_eq
  rw [List.getLastD_cons] at hlast
  exact Mblue.listSpliceBetween_eq hr.span.next_eq hlast

theorem spliceFirst {z : α} (hm : Carries m L) (hl : L k = some (z :: l))
    (hh : L h = some l') (hne : k ≠ h) :
    ∃ m', listSpliceBetween k (some h) (m.next h) m = some m' ∧
      Carries m' ((L.drop k).put h (z :: l ++ l')) := by
  have hfirst := headD_mem l' h
  have hlast := getLastD_mem l z
  have hr := (hm.ring h _ hh).meldFirst (hm.ring k _ hl) (hm.apart hh hl hne)
  refine ⟨_, ?_, hm.meld hl hh hne ?_ hr (by grind)⟩
  · rw [(hm.ring h _ hh).span.next_eq, hm.listSpliceBetween_eq hl]
  · exact ((Changes.refl _ m).join (by grind) (by grind)).join (by grind) (by grind)

theorem spliceLast {z : α} (hm : Carries m L) (hl : L k = some (z :: l))
    (hh : L h = some l') (hne : k ≠ h) :
    ∃ m', listSpliceBetween k (m.prev h) (some h) m = some m' ∧
      Carries m' ((L.drop k).put h (l' ++ z :: l)) := by
  have hlast' := getLastD_mem l' h
  have hlast := getLastD_mem l z
  have hr := (hm.ring h _ hh).meldLast (hm.ring k _ hl) (hm.apart hh hl hne)
  refine ⟨_, ?_, hm.meld hl hh hne ?_ hr (by grind)⟩
  · rw [(hm.ring h _ hh).span.prev_eq, hm.listSpliceBetween_eq hl]
  · exact ((Changes.refl _ m).join (by grind) (by grind)).join (by grind) (by grind)

theorem listReplaceInit (hm : Carries m L) (hl : L h = some (l₁ ++ x :: l₂))
    (hy : L.Unlinked y) (hne : y ≠ h) :
    ∃ m', Mblue.listReplaceInit x y m = some m' ∧
      Carries m' (((L.drop y).put h (l₁ ++ y :: l₂)).put x []) := by
  obtain ⟨m', heq, hm'⟩ := hm.listReplace hl hy hne
  have hx : ((L.drop y).put h (l₁ ++ y :: l₂)).Unlinked x := by
    intro k l hk hmem
    have hnodup := (hm.ring h _ hl).nodup
    have hyl := hy h _ hl
    rw [Lists.put_apply, Lists.drop_apply] at hk
    split at hk
    · grind
    · next hkh =>
      split at hk
      · cases hk
      · exact hm.outside hl hk hkh hmem (by simp)
  exact ⟨m'.join x x, by rw [Mblue.listReplaceInit, heq]; rfl, hm'.initHead hx⟩

omit [DecidableEq α] in
/-- A head is not an entry. -/
theorem unlinked_head (hm : Carries m L) (hl : L h = some l) : L.Unlinked h :=
  fun k l' hk hmem ↦ absurd ((hm.entry k l' hk h hmem).symm.trans hl) (by simp)

theorem listReplaceInit_head (hm : Carries m L) (hl : L x = some l) (hy : L.Unlinked y)
    (hne : y ≠ x) :
    ∃ m', Mblue.listReplaceInit x y m = some m' ∧
      Carries m' ((L.put x []).put y l) := by
  obtain ⟨m', heq, hm'⟩ := hm.listReplace_head hl hy hne
  have hx : ((L.drop x).put y l).Unlinked x := by
    intro k l' hk
    have hnot := (hm.ring x l hl).not_mem
    have hhead := hm.unlinked_head hl k
    grind
  have hlists : ((L.drop x).put y l).put x [] = (L.put x []).put y l := by
    funext j
    grind
  exact ⟨m'.join x x, by rw [Mblue.listReplaceInit, heq]; rfl, hlists ▸ hm'.initHead hx⟩

theorem listMove (hm : Carries m L) (hl : L h = some (l₁ ++ x :: l₂))
    (hk : L.put h (l₁ ++ l₂) k = some l) :
    ∃ m', Mblue.listMove x k m = some m' ∧
      Carries m' ((L.put h (l₁ ++ l₂)).put k (x :: l)) := by
  have hnone : L.put h (l₁ ++ l₂) x = none := by
    have hx : L x = none := hm.entry h _ hl x (by simp)
    grind
  have hxk : x ≠ k := fun heq ↦ absurd (hnone.symm.trans (heq ▸ hk)) (by simp)
  obtain ⟨m', heq, hm'⟩ := (hm.unlink hl).listAdd (hm.unlinked_unlink hl) hxk hk
  rw [Lists.drop_eq_self hnone] at hm'
  exact ⟨m', by rw [Mblue.listMove, hm.listDelBetween_eq hl]; exact heq, hm'⟩

theorem listMoveTail (hm : Carries m L) (hl : L h = some (l₁ ++ x :: l₂))
    (hk : L.put h (l₁ ++ l₂) k = some l) :
    ∃ m', Mblue.listMoveTail x k m = some m' ∧
      Carries m' ((L.put h (l₁ ++ l₂)).put k (l ++ [x])) := by
  have hnone : L.put h (l₁ ++ l₂) x = none := by
    have hx : L x = none := hm.entry h _ hl x (by simp)
    grind
  have hxk : x ≠ k := fun heq ↦ absurd (hnone.symm.trans (heq ▸ hk)) (by simp)
  obtain ⟨m', heq, hm'⟩ := (hm.unlink hl).listAddTail (hm.unlinked_unlink hl) hxk hk
  rw [Lists.drop_eq_self hnone] at hm'
  exact ⟨m', by rw [Mblue.listMoveTail, hm.listDelBetween_eq hl]; exact heq, hm'⟩

theorem listCutPosition_head (hm : Carries m L) (hl : L h = some (x :: l))
    (hy : L.Unlinked y) :
    ∃ m', Mblue.listCutPosition y h h m = some m' ∧ Carries m' (L.put y []) := by
  refine ⟨m.join y y, ?_, hm.initHead hy⟩
  rw [Mblue.listCutPosition, hm.listEmpty_eq hl, if_neg (by simp), if_neg (by simp), if_pos rfl]
  rfl

theorem listCutPosition_empty (hm : Carries m L) (hl : L h = some []) :
    Mblue.listCutPosition y h x m = some m := by
  rw [Mblue.listCutPosition, hm.listEmpty_eq hl, if_pos (by simp)]

/-- Once its entries are gone, the head of a list can be initialised again. -/
theorem reinit (hm : Carries m L) (hl : L k = some l) (hh : L h = some l') (hne : k ≠ h)
    {l'' : List α} (hsub : l'' ⊆ l' ++ l) (hm' : Carries m' ((L.drop k).put h l'')) :
    Carries (m'.join k k) ((L.put k []).put h l'') := by
  have hnot := (hm.ring k l hl).not_mem
  have hnot' := hm.unlinked_head hl h l' hh
  have hk : ((L.drop k).put h l'').Unlinked k := by
    intro j l₂ hj
    have hhead := hm.unlinked_head hl j
    have hmem (y : α) (hy : y ∈ l'') : y ∈ l' ++ l := hsub hy
    grind
  have hlists : ((L.drop k).put h l'').put k [] = (L.put k []).put h l'' := by
    funext j
    grind
  exact hlists ▸ hm'.initHead hk

theorem listSpliceInit (hm : Carries m L) (hl : L k = some l) (hh : L h = some l')
    (hne : k ≠ h) :
    ∃ m', Mblue.listSpliceInit k h m = some m' ∧
      Carries m' ((L.put k []).put h (l ++ l')) := by
  rw [Mblue.listSpliceInit, hm.listEmpty_eq hl]
  cases l with
  | nil =>
    refine ⟨m, rfl, ?_⟩
    rwa [Lists.put_eq_self hl, List.nil_append, Lists.put_eq_self hh]
  | cons z l =>
    obtain ⟨m', heq, hm'⟩ := hm.spliceFirst hl hh hne
    refine ⟨m'.join k k, ?_, hm.reinit hl hh hne (by grind) hm'⟩
    rw [if_neg (by simp), heq]
    rfl

theorem listSpliceTailInit (hm : Carries m L) (hl : L k = some l) (hh : L h = some l')
    (hne : k ≠ h) :
    ∃ m', Mblue.listSpliceTailInit k h m = some m' ∧
      Carries m' ((L.put k []).put h (l' ++ l)) := by
  rw [Mblue.listSpliceTailInit, hm.listEmpty_eq hl]
  cases l with
  | nil =>
    refine ⟨m, rfl, ?_⟩
    rwa [Lists.put_eq_self hl, List.append_nil, Lists.put_eq_self hh]
  | cons z l =>
    obtain ⟨m', heq, hm'⟩ := hm.spliceLast hl hh hne
    refine ⟨m'.join k k, ?_, hm.reinit hl hh hne (by grind) hm'⟩
    rw [if_neg (by simp), heq]
    rfl

/-- **An operation that may be called works**: it stores through no `NULL`, returns what the lists
say, and its pointers carry the lists after it. -/
theorem step {c : ListCall α} {r : Option Bool} (hm : Carries m L) (hstep : L.Step c r L') :
    ∃ m', c.perform m = some (r, m') ∧ Carries m' L' := by
  have hdone {o : Option (Links α)} {L' : Lists α} (ho : ∃ m', o = some m' ∧ Carries m' L') :
      ∃ m', o.map (fun m ↦ ((none : Option Bool), m)) = some (none, m') ∧ Carries m' L' := by
    obtain ⟨m', rfl, hm'⟩ := ho
    exact ⟨m', rfl, hm'⟩
  cases hstep with
  | init hlist => exact ⟨_, rfl, hm.initHead hlist⟩
  | add hx hne hl => exact hdone (hm.listAdd hx hne hl)
  | addTail hx hne hl => exact hdone (hm.listAddTail hx hne hl)
  | del hl => exact hdone (hm.listDel hl)
  | delInit hl => exact hdone (hm.listDelInit hl)
  | replace hl hy hne => exact hdone (hm.listReplace hl hy hne)
  | replaceHead hl hy hne => exact hdone (hm.listReplace_head hl hy hne)
  | replaceInit hl hy hne => exact hdone (hm.listReplaceInit hl hy hne)
  | replaceInitHead hl hy hne => exact hdone (hm.listReplaceInit_head hl hy hne)
  | move hl hk => exact hdone (hm.listMove hl hk)
  | moveTail hl hk => exact hdone (hm.listMoveTail hl hk)
  | cut hl hlist hne => exact hdone (hm.listCutPosition hl hlist hne)
  | cutHead hl hlist => exact hdone (hm.listCutPosition_head hl hlist)
  | cutEmpty hl => exact hdone ⟨m, hm.listCutPosition_empty hl, hm⟩
  | @splice k h x l l' hl hh hne =>
    obtain ⟨m', heq, hm'⟩ := hm.spliceFirst hl hh hne
    refine hdone ⟨m', ?_, hm'⟩
    rw [Mblue.listSplice, hm.listEmpty_eq hl]
    exact heq
  | spliceEmpty hl => exact hdone ⟨m, if_pos (hm.listEmpty_eq hl), hm⟩
  | spliceTail hl hh hne =>
    obtain ⟨m', heq, hm'⟩ := hm.spliceLast hl hh hne
    refine hdone ⟨m', ?_, hm'⟩
    rw [Mblue.listSpliceTail, hm.listEmpty_eq hl]
    exact heq
  | spliceTailEmpty hl => exact hdone ⟨m, if_pos (hm.listEmpty_eq hl), hm⟩
  | spliceInit hl hh hne => exact hdone (hm.listSpliceInit hl hh hne)
  | spliceTailInit hl hh hne => exact hdone (hm.listSpliceTailInit hl hh hne)
  | isLast hl => exact ⟨m, congrArg (fun b ↦ some (some b, m)) (hm.listIsLast_eq hl), hm⟩
  | empty hl => exact ⟨m, congrArg (fun b ↦ some (some b, m)) (hm.listEmpty_eq hl), hm⟩
  | emptyCareful hl =>
    exact ⟨m, congrArg (fun b ↦ some (some b, m)) (hm.listEmptyCareful_eq hl), hm⟩
  | isSingular hl => exact ⟨m, congrArg (fun b ↦ some (some b, m)) (hm.listIsSingular_eq hl), hm⟩

/-- What holds of a step holds of a sequence of calls. -/
theorem steps {cs : List (ListCall α)} {rs : List (Option Bool)} (hm : Carries m L)
    (hsteps : L.Steps cs rs L') : ∃ m', performCalls m cs = some (rs, m') ∧ Carries m' L' := by
  induction hsteps generalizing m with
  | nil => exact ⟨m, rfl, hm⟩
  | cons hstep _ ih =>
    obtain ⟨m₁, hperform, hm₁⟩ := hm.step hstep
    obtain ⟨m₂, hcalls, hm₂⟩ := ih hm₁
    exact ⟨m₂, by rw [performCalls, hperform]; simp [hcalls], hm₂⟩

end Carries

end Mblue
