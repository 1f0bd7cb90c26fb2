import Mathlib

/-!
# Nodes that point at each other

Every node has a pointer forwards and a pointer backwards, and either may point nowhere.
`Span m a l b` says that in the memory `m` the way from `a` to `b` leads over the nodes `l`,
forwards and backwards alike, and `Ring m h l` that the way from `h` leads over `l` back to `h`,
without meeting a node twice.

`Links.join` makes two nodes point at each other, and whatever an operation on rings does is a few
of these. What a `join` does to a span is said by four rules: it leaves a span alone whose pointers
it does not touch (`Span.join`), it moves the end of a span (`Span.to`) or its start (`Span.from`),
and it makes one span of two (`Span.bridge`). Spans are put together and taken apart at a node they
meet (`span_append_cons_iff`).

A memory determines its rings: two that share a node have the same nodes (`Ring.mem_of_mem`).
-/

namespace LinkedRing

/-- The pointers of all nodes; `none` points nowhere. -/
@[ext]
structure Links (α : Type*) where
  next : α → Option α
  prev : α → Option α

variable {α : Type*}

/-- Two nodes point at each other. -/
def Joined (m : Links α) (a b : α) : Prop :=
  m.next a = some b ∧ m.prev b = some a

/-- The way from `a` to `b` leads over the nodes `l`. -/
def Span (m : Links α) (a : α) : List α → α → Prop
  | [], b => Joined m a b
  | x :: l, b => Joined m a x ∧ Span m x l b

/-- The way from `h` leads over the nodes `l` back to `h`. -/
structure Ring (m : Links α) (h : α) (l : List α) : Prop where
  nodup : (h :: l).Nodup
  span : Span m h l h

/-- The two memories differ at most at the nodes of `s`. -/
def Changes (s : List α) (m m' : Links α) : Prop :=
  ∀ a, a ∉ s → m'.next a = m.next a ∧ m'.prev a = m.prev a

variable {m m' : Links α} {a b c d h x y : α} {l l' l₁ l₂ : List α}

/-! ### Spans -/

@[simp] theorem span_nil : Span m a [] b ↔ Joined m a b := Iff.rfl

@[simp] theorem span_cons : Span m a (x :: l) b ↔ Joined m a x ∧ Span m x l b := Iff.rfl

/-- Spans are put together at a node. -/
theorem span_append_cons_iff :
    Span m a (l₁ ++ x :: l₂) b ↔ Span m a l₁ x ∧ Span m x l₂ b := by
  induction l₁ generalizing a with
  | nil => rfl
  | cons y l ih => rw [List.cons_append, span_cons, span_cons, ih, and_assoc]

theorem Span.next_eq (h : Span m a l b) : m.next a = some (l.headD b) := by
  cases l with
  | nil => exact h.1
  | cons => exact h.1.1

theorem Span.prev_eq (h : Span m a l b) : m.prev b = some (l.getLastD a) := by
  induction l generalizing a with
  | nil => exact h.2
  | cons x l ih =>
    rw [List.getLastD_cons]
    exact ih h.2

theorem getLastD_mem (l : List α) (a : α) : l.getLastD a ∈ a :: l :=
  List.getLastD_mem_cons

theorem headD_mem (l : List α) (b : α) : l.headD b ∈ l ++ [b] := by
  cases l with
  | nil => exact List.mem_singleton_self b
  | cons => exact List.mem_cons_self

/-- Following the pointers there is only one way to a node. -/
theorem Span.unique (h₁ : Span m a l₁ b) (h₂ : Span m a l₂ b) (hb₁ : b ∉ l₁) (hb₂ : b ∉ l₂) :
    l₁ = l₂ := by
  induction l₁ generalizing a l₂ with
  | nil =>
    cases l₂ with
    | nil => rfl
    | cons y l₂ =>
      have hy : b = y := Option.some.inj (h₁.1.symm.trans h₂.1.1)
      exact absurd (hy ▸ List.mem_cons_self) hb₂
  | cons x l₁ ih =>
    cases l₂ with
    | nil =>
      have hx : x = b := Option.some.inj (h₁.1.1.symm.trans h₂.1)
      exact absurd (hx ▸ List.mem_cons_self) hb₁
    | cons y l₂ =>
      obtain rfl : x = y := Option.some.inj (h₁.1.1.symm.trans h₂.1.1)
      rw [ih h₁.2 h₂.2 (fun hb ↦ hb₁ (List.mem_cons_of_mem _ hb))
        (fun hb ↦ hb₂ (List.mem_cons_of_mem _ hb))]

/-- A span does not leave a set of nodes that the pointers do not leave. -/
theorem Span.mem_of_closed {s : List α} (hs : ∀ a ∈ s, ∀ b, m.next a = some b → b ∈ s)
    (h : Span m a l b) (ha : a ∈ s) : b ∈ s := by
  induction l generalizing a with
  | nil => exact hs a ha b h.1
  | cons x l ih => exact ih h.2 (hs a ha x h.1.1)

theorem Span.congr (hs : ∀ c ∈ a :: l ++ [b], m'.next c = m.next c ∧ m'.prev c = m.prev c)
    (h : Span m a l b) : Span m' a l b := by
  induction l generalizing a with
  | nil =>
    exact ⟨(hs a (by simp)).1.trans h.1, (hs b (by simp)).2.trans h.2⟩
  | cons x l ih =>
    have hjoined : Joined m' a x := ⟨(hs a (by simp)).1.trans h.1.1, (hs x (by simp)).2.trans h.1.2⟩
    refine ⟨hjoined, ih (fun c hc ↦ ?_) h.2⟩
    exact hs c (List.mem_cons_of_mem _ hc)

/-! ### Rings -/

namespace Ring

theorem not_mem (hr : Ring m h l) : h ∉ l :=
  (List.nodup_cons.1 hr.nodup).1

theorem nodup_tail (hr : Ring m h l) : l.Nodup :=
  (List.nodup_cons.1 hr.nodup).2

/-- The pointers do not lead out of a ring. -/
theorem next_mem (hr : Ring m h l) (ha : a ∈ h :: l) (hb : m.next a = some b) : b ∈ h :: l := by
  obtain ⟨l₁, l₂, hl⟩ := List.mem_iff_append.1 ha
  -- the ring is cut at the node
  have hspan : Span m a l₂ h := by
    cases l₁ with
    | nil =>
      obtain ⟨rfl, rfl⟩ := List.cons.inj hl
      exact hr.span
    | cons y l₁ =>
      obtain ⟨rfl, rfl⟩ := List.cons.inj hl
      exact (span_append_cons_iff.1 hr.span).2
  obtain rfl := Option.some.inj (hb.symm.trans hspan.next_eq)
  rw [hl]
  cases l₂ with
  | nil => exact hl ▸ List.mem_cons_self
  | cons => exact List.mem_append_right _ (List.mem_cons_of_mem _ List.mem_cons_self)

/-- **A node lies on one ring**: one that shares a node with another has its head there. -/
theorem mem_of_mem (hr : Ring m h l) {h' : α} (hr' : Ring m h' l')
    (ha : a ∈ h :: l) (ha' : a ∈ h' :: l') : h' ∈ h :: l := by
  rcases List.mem_cons.1 ha' with rfl | hmem
  · exact ha
  · obtain ⟨l₁, l₂, rfl⟩ := List.mem_iff_append.1 hmem
    exact (span_append_cons_iff.1 hr'.span).2.mem_of_closed (fun _ hc _ hd ↦ hr.next_mem hc hd) ha

/-- Two lists of one ring are the same list. -/
theorem unique (h₁ : Ring m h l₁) (h₂ : Ring m h l₂) : l₁ = l₂ :=
  h₁.span.unique h₂.span h₁.not_mem h₂.not_mem

theorem change (hr : Ring m h l) {s : List α} (hm : Changes s m m') (hs : ∀ a ∈ h :: l, a ∉ s) :
    Ring m' h l := by
  refine ⟨hr.nodup, hr.span.congr fun c hc ↦ hm c (hs c ?_)⟩
  rcases List.mem_append.1 hc with hc | hc
  · exact hc
  · exact List.mem_singleton.1 hc ▸ List.mem_cons_self

/-- An entry cuts a ring in two spans. -/
theorem split (hr : Ring m h (l₁ ++ x :: l₂)) : Span m h l₁ x ∧ Span m x l₂ h :=
  span_append_cons_iff.1 hr.span

end Ring

/-! ### Changing the pointers -/

section
variable [DecidableEq α]

namespace Links

/-- `a` and `b` are made to point at each other. -/
def join (m : Links α) (a b : α) : Links α where
  next := Function.update m.next a (some b)
  prev := Function.update m.prev b (some a)

/-- A node is made to point nowhere. -/
def clear (m : Links α) (a : α) : Links α where
  next := Function.update m.next a none
  prev := Function.update m.prev a none

@[simp] theorem next_join_self : (m.join a b).next a = some b := Function.update_self ..

@[simp] theorem prev_join_self : (m.join a b).prev b = some a := Function.update_self ..

theorem next_join (hc : c ≠ a) : (m.join a b).next c = m.next c := Function.update_of_ne hc ..

theorem prev_join (hc : c ≠ b) : (m.join a b).prev c = m.prev c := Function.update_of_ne hc ..

/-- Two `join`s that do not touch the same pointer may be exchanged. -/
theorem join_comm (hac : a ≠ c) (hbd : b ≠ d) : (m.join a b).join c d = (m.join c d).join a b :=
  Links.ext (Function.update_comm hac _ _ m.next) (Function.update_comm hbd _ _ m.prev)

end Links

omit [DecidableEq α] in
theorem Changes.refl (s : List α) (m : Links α) : Changes s m m := fun _ _ ↦ ⟨rfl, rfl⟩

theorem Changes.join {s : List α} (h : Changes s m m') (ha : a ∈ s) (hb : b ∈ s) :
    Changes s m (m'.join a b) := fun c hc ↦ by
  have hca : c ≠ a := fun heq ↦ hc (heq ▸ ha)
  have hcb : c ≠ b := fun heq ↦ hc (heq ▸ hb)
  rw [Links.next_join hca, Links.prev_join hcb]
  exact h c hc

theorem Changes.clear {s : List α} (h : Changes s m m') (ha : a ∈ s) :
    Changes s m (m'.clear a) := fun c hc ↦ by
  have hne : c ≠ a := fun heq ↦ hc (heq ▸ ha)
  exact ⟨(Function.update_of_ne hne ..).trans (h c hc).1,
    (Function.update_of_ne hne ..).trans (h c hc).2⟩

omit [DecidableEq α] in
theorem Changes.mono {s t : List α} (h : Changes s m m') (hst : s ⊆ t) : Changes t m m' :=
  fun c hc ↦ h c fun hs ↦ hc (hst hs)

omit [DecidableEq α] in
theorem Changes.trans {s : List α} {m'' : Links α} (h : Changes s m m') (h' : Changes s m' m'') :
    Changes s m m'' :=
  fun c hc ↦ ⟨(h' c hc).1.trans (h c hc).1, (h' c hc).2.trans (h c hc).2⟩

theorem joined_join : Joined (m.join a b) a b :=
  ⟨Links.next_join_self, Links.prev_join_self⟩

theorem Joined.join (h : Joined m a b) (ha : a ≠ c) (hb : b ≠ d) : Joined (m.join c d) a b :=
  ⟨(Links.next_join ha).trans h.1, (Links.prev_join hb).trans h.2⟩

/-- A span stays when neither a pointer forwards nor one backwards of it is touched. -/
theorem Span.join (h : Span m a l b) (hc : c ∉ a :: l) (hd : d ∉ l ++ [b]) :
    Span (m.join c d) a l b := by
  induction l generalizing a with
  | nil =>
    exact Joined.join h (fun hac ↦ hc (hac ▸ List.mem_cons_self))
      (fun hbd ↦ hd (hbd ▸ List.mem_cons_self))
  | cons x l ih =>
    refine ⟨h.1.join (fun hac ↦ hc (hac ▸ List.mem_cons_self))
      (fun hxd ↦ hd (hxd ▸ List.mem_cons_self)), ih h.2 ?_ ?_⟩
    · exact fun hmem ↦ hc (List.mem_cons_of_mem _ hmem)
    · exact fun hmem ↦ hd (List.mem_cons_of_mem _ hmem)

theorem Span.clear (h : Span m a l b) (hc : c ∉ a :: l ++ [b]) : Span (m.clear c) a l b :=
  h.congr fun d hd ↦ by
    have hne : d ≠ c := fun hdc ↦ hc (hdc ▸ hd)
    exact ⟨Function.update_of_ne hne .., Function.update_of_ne hne ..⟩

/-- The last node of a span is made to point elsewhere. -/
theorem Span.to (h : Span m a l b) (hnodup : (a :: l).Nodup) (hc : c ∉ l) :
    Span (m.join (l.getLastD a) c) a l c := by
  induction l generalizing a with
  | nil => exact joined_join
  | cons x l ih =>
    rw [List.getLastD_cons]
    have hne : a ≠ l.getLastD x := fun heq ↦
      (List.nodup_cons.1 hnodup).1 (heq ▸ List.getLastD_mem_cons)
    refine ⟨h.1.join hne (fun hxc ↦ hc (hxc ▸ List.mem_cons_self)), ?_⟩
    exact ih h.2 (List.nodup_cons.1 hnodup).2 fun hmem ↦ hc (List.mem_cons_of_mem _ hmem)

/-- Another node is made to point at the first one of a span. -/
theorem Span.from (h : Span m a l b) (hnodup : (l ++ [b]).Nodup) (hc : c ∉ l) :
    Span (m.join c (l.headD b)) c l b := by
  cases l with
  | nil => exact joined_join
  | cons x l =>
    exact ⟨joined_join, h.2.join hc (List.nodup_cons.1 hnodup).1⟩

/-- **Two spans become one**, over the nodes of both. -/
theorem Span.bridge (h₁ : Span m a l₁ x) (h₂ : Span m y l₂ b) (hnodup : (l₁ ++ l₂).Nodup)
    (ha : a ∉ l₁ ++ l₂) (hb : b ∉ l₁ ++ l₂) :
    Span (m.join (l₁.getLastD a) (l₂.headD b)) a (l₁ ++ l₂) b := by
  have hnodup₁ : (a :: l₁).Nodup :=
    List.nodup_cons.2 ⟨fun hmem ↦ ha (List.mem_append_left _ hmem), hnodup.of_append_left⟩
  cases l₂ with
  | nil =>
    rw [List.append_nil] at hb ⊢
    exact h₁.to hnodup₁ hb
  | cons z l₂ =>
    have hdisj : ∀ c ∈ l₁, c ∉ z :: l₂ := fun c hc ↦ (List.nodup_append'.1 hnodup).2.2 hc
    have hnodup₂ : (z :: l₂).Nodup := hnodup.of_append_right
    refine span_append_cons_iff.2 ⟨h₁.to hnodup₁ fun hz ↦ hdisj z hz List.mem_cons_self,
      h₂.2.join (fun hmem ↦ ?_) (fun hmem ↦ ?_)⟩
    · rcases List.mem_cons.1 (getLastD_mem l₁ a) with heq | hlast
      · exact ha (List.mem_append_right _ (heq ▸ hmem))
      · exact hdisj _ hlast hmem
    · rcases List.mem_append.1 hmem with hz | hz
      · exact (List.nodup_cons.1 hnodup₂).1 hz
      · exact hb (List.mem_append_right _ (List.mem_singleton.1 hz ▸ List.mem_cons_self))

/-! ### Rings that are changed -/

namespace Ring

/-- A node that points at itself is a ring. -/
theorem join_self (m : Links α) (h : α) : Ring (m.join h h) h [] :=
  ⟨List.nodup_singleton h, joined_join⟩

/-- A node is put before the head. -/
theorem concat (hr : Ring m h l) (hx : x ∉ h :: l) :
    Ring ((m.join x h).join (l.getLastD h) x) h (l ++ [x]) := by
  obtain ⟨hxh, hxl⟩ := not_or.1 (mt List.mem_cons.2 hx)
  have hlast : x ≠ l.getLastD h := fun heq ↦ hx (heq ▸ getLastD_mem l h)
  rw [Links.join_comm hlast (Ne.symm hxh)]
  refine ⟨?_, span_append_cons_iff.2 ⟨(hr.span.to hr.nodup hxl).join hx ?_, joined_join⟩⟩
  · have hnodup := hr.nodup
    grind
  · have hh := hr.not_mem
    grind

/-- A node is put behind the head. -/
theorem cons (hr : Ring m h l) (hx : x ∉ h :: l) :
    Ring ((m.join x (l.headD h)).join h x) h (x :: l) := by
  obtain ⟨hxh, hxl⟩ := not_or.1 (mt List.mem_cons.2 hx)
  have hnodup := hr.nodup
  have hspan : Span (m.join x (l.headD h)) x l h := hr.span.from (by grind) hxl
  exact ⟨by grind, joined_join, hspan.join (by grind) (by grind)⟩

/-- The nodes around a node are joined. -/
theorem remove (hr : Ring m h (l₁ ++ x :: l₂)) :
    Ring (m.join (l₁.getLastD h) (l₂.headD h)) h (l₁ ++ l₂) := by
  have hnodup := hr.nodup
  exact ⟨by grind, hr.split.1.bridge hr.split.2 (by grind) (by grind) (by grind)⟩

/-- A node takes the place of another one. -/
theorem substitute (hr : Ring m h (l₁ ++ x :: l₂)) (hy : y ∉ h :: (l₁ ++ x :: l₂)) :
    Ring ((m.join y (l₂.headD h)).join (l₁.getLastD h) y) h (l₁ ++ y :: l₂) := by
  have hnodup := hr.nodup
  have hlast := getLastD_mem l₁ h
  have hfirst := headD_mem l₂ h
  have hafter : Span (m.join y (l₂.headD h)) y l₂ h := hr.split.2.from (by grind) (by grind)
  have hbefore : Span (m.join y (l₂.headD h)) h l₁ x := hr.split.1.join (by grind) (by grind)
  refine ⟨by grind, span_append_cons_iff.2 ⟨hbefore.to (by grind) (by grind), ?_⟩⟩
  exact hafter.join (by grind) (by grind)

/-- A node takes the place of the head. -/
theorem rehead (hr : Ring m h (x :: l)) (hy : y ∉ h :: x :: l) :
    Ring ((m.join y x).join (l.getLastD x) y) y (x :: l) := by
  have hnodup := hr.nodup
  have hspan : Span (m.join y x) y (x :: l) h := hr.span.from (by grind) (by grind)
  have hlast : (x :: l).getLastD y = l.getLastD x := List.getLastD_cons
  exact ⟨by grind, hlast ▸ hspan.to (by grind) (by grind)⟩

/-- Another ring's nodes are put before the head. -/
theorem meldLast (hr : Ring m h l) (hr' : Ring m y (x :: l'))
    (hdisj : (h :: l).Disjoint (y :: x :: l')) :
    Ring ((m.join (l.getLastD h) x).join (l'.getLastD x) h) h (l ++ x :: l') := by
  have hnodup := hr.nodup
  have hnodup' := hr'.nodup
  have hnone (c : α) (hc : c ∈ h :: l) (hc' : c ∈ y :: x :: l') : False := hdisj hc hc'
  have hspan : Span (m.join (l.getLastD h) x) h (l ++ x :: l') y :=
    hr.span.bridge hr'.span (by grind) (by grind) (by grind)
  have hlast : (l ++ x :: l').getLastD h = l'.getLastD x := by
    rw [List.getLastD_eq_getLast?, List.getLast?_append_cons, ← List.getLastD_eq_getLast?,
      List.getLastD_cons]
  exact ⟨by grind, hlast ▸ hspan.to (by grind) (by grind)⟩

/-- Another ring's nodes are put behind the head. -/
theorem meldFirst (hr : Ring m h l) (hr' : Ring m y (x :: l'))
    (hdisj : (h :: l).Disjoint (y :: x :: l')) :
    Ring ((m.join h x).join (l'.getLastD x) (l.headD h)) h (x :: l' ++ l) := by
  have hnodup := hr.nodup
  have hnodup' := hr'.nodup
  have hnone (c : α) (hc : c ∈ h :: l) (hc' : c ∈ y :: x :: l') : False := hdisj hc hc'
  have hlast := getLastD_mem l' x
  have hfirst := headD_mem l h
  have hcons : (x :: l').getLastD y = l'.getLastD x := List.getLastD_cons
  have hspan : Span (m.join (l'.getLastD x) (l.headD h)) y (x :: l' ++ l) h :=
    hcons ▸ hr'.span.bridge hr.span (by grind) (by grind) (by grind)
  rw [Links.join_comm (by grind) (by grind)]
  exact ⟨by grind, hspan.from (by grind) (by grind)⟩

/-- The nodes up to `x` become the ring of another node. -/
theorem cut (hr : Ring m h (l₁ ++ x :: l₂)) (hy : y ∉ h :: (l₁ ++ x :: l₂)) :
    Ring (((m.join y (l₁.headD x)).join x y).join h (l₂.headD h)) y (l₁ ++ [x]) ∧
      Ring (((m.join y (l₁.headD x)).join x y).join h (l₂.headD h)) h l₂ := by
  have hnodup := hr.nodup
  have hfirst := headD_mem l₁ x
  have hnext := headD_mem l₂ h
  -- the nodes up to `x`, and then the others
  constructor
  · have hspan : Span (m.join y (l₁.headD x)) y l₁ x := hr.split.1.from (by grind) (by grind)
    have hspan' : Span ((m.join y (l₁.headD x)).join x y) y l₁ x :=
      hspan.join (by grind) (by grind)
    refine ⟨by grind, span_append_cons_iff.2 ⟨hspan'.join (by grind) (by grind), ?_⟩⟩
    exact Joined.join joined_join (by grind) (by grind)
  · have hspan : Span (m.join y (l₁.headD x)) x l₂ h := hr.split.2.join (by grind) (by grind)
    have hspan' : Span ((m.join y (l₁.headD x)).join h (l₂.headD h)) h l₂ h :=
      hspan.from (by grind) (by grind)
    rw [Links.join_comm (by grind) (by grind)]
    exact ⟨by grind, hspan'.join (by grind) (by grind)⟩

end Ring

end

end LinkedRing
