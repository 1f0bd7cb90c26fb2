import Mblue.Common.ListRuns

/-!
# The linked lists do what lists do

* `followsLists_of_steps` — from any memory, every sequence of operations that may be called runs
  without following `NULL`, returns what the lists say, and leaves rings that carry the lists.
* `loopsWork_of_steps` — on a list of such a memory, `list_for_each` visits the entries in order,
  and both loops end. One may take out the current entry and break off; `list_for_each_safe` may
  take out any of the entries it visits and go on; `list_for_each` fails as soon as it does that.
-/

namespace Mblue

open LinkedRing

variable {α : Type} [DecidableEq α]

/-! ### Sequences of operations -/

/-- The calls return what the lists say, and the pointers carry the lists after them. -/
def FollowsLists (m : Links α) (cs : List (ListCall α)) (rs : List (Option Bool)) (L : Lists α) :
    Prop :=
  ∃ m', performCalls m cs = some (rs, m') ∧ Carries m' L ∧
    ∀ h k l l', L h = some l → L k = some l' → h ≠ k → (h :: l).Disjoint (k :: l')

/-- **Operations on linked lists are operations on lists.** -/
theorem followsLists_of_steps {L : Lists α} {cs : List (ListCall α)} {rs : List (Option Bool)}
    (m : Links α) (h : Lists.Steps .start cs rs L) : FollowsLists m cs rs L := by
  obtain ⟨m', hcalls, hm'⟩ := (carries_start m).steps h
  exact ⟨m', hcalls, hm', fun h k l l' hl hl' hne ↦ hm'.apart hl hl' hne.symm⟩

/-- Two lists of four nodes: one is spliced into the other, which is cut again. -/
theorem steps_splice : ∃ L : Lists (Fin 4), L 0 = some [] ∧ L 1 = some [2, 3] ∧
    Lists.Steps .start [.init 0, .init 1, .addTail 2 0, .add 3 0, .spliceInit 0 1, .isLast 2 1,
      .cutPosition 0 1 3, .moveTail 3 1, .empty 0]
      [none, none, none, none, none, some true, none, none, some true] L := by
  have h₀ := Lists.unlinked_start (α := Fin 4)
  refine ⟨_, ?_, ?_, .cons (.init (h₀ 0)) <| .cons (.init ((h₀ 1).put (by decide))) <|
    .cons (.addTail (((h₀ 2).put (by decide)).put (by decide)) (by decide) rfl) <|
    .cons (.add (((((h₀ 3).put (by decide)).put (by decide)).drop).put (by decide)) (by decide)
      rfl) <|
    .cons (.spliceInit rfl rfl (by decide)) <| .cons (@Lists.Step.isLast _ _ _ 2 1 [3] [] rfl) <|
    .cons (@Lists.Step.cut _ _ _ 0 1 3 [] [2] rfl ?_ (by decide)) <|
    .cons (@Lists.Step.moveTail _ _ _ 3 0 1 _ [] [] rfl rfl) <|
    .cons (@Lists.Step.empty _ _ _ 0 [] rfl) .nil⟩
  · rfl
  · rfl
  · exact ((((((((h₀ 0).put (by decide)).put (by decide)).drop).put (by decide)).drop).put
      (by decide)).put (by decide)).put (by decide)

/-- They agree with the pointers. -/
theorem followsLists_splice : ∃ L : Lists (Fin 4), L 0 = some [] ∧ L 1 = some [2, 3] ∧
    FollowsLists ⟨fun _ ↦ none, fun _ ↦ none⟩
      [.init 0, .init 1, .addTail 2 0, .add 3 0, .spliceInit 0 1, .isLast 2 1, .cutPosition 0 1 3,
        .moveTail 3 1, .empty 0]
      [none, none, none, none, none, some true, none, none, some true] L := by
  obtain ⟨L, hleft, hright, hsteps⟩ := steps_splice
  exact ⟨L, hleft, hright, followsLists_of_steps _ hsteps⟩

/-! ### Loops -/

section
variable {σ : Type}

/-- The body of a loop runs for each node in turn, until it breaks off. -/
def visit (body : α → σ → Option (σ × Bool)) : List α → σ → Option σ
  | [], s => some s
  | x :: l, s => do
    let (s, goOn) ← body x s
    if goOn then visit body l s else some s

variable {links : σ → Links α} {body : α → σ → Option (σ × Bool)} {head : α}
  {I : List α → σ → Prop}

/-- **A loop visits what lay ahead when it came there**: `I l s` says that `l` lies ahead in `s`,
and the body may do what keeps it for the nodes behind the current one. -/
theorem listForEachSafeFrom_eq (hahead : ∀ x l s, I (x :: l) s → Span (links s) x l head)
    (hkeep : ∀ x l s s', I (x :: l) s → body x s = some (s', true) → I l s') {l : List α} {s : σ}
    {fuel : ℕ} (hI : I l s) (hhead : head ∉ l) (hfuel : l.length < fuel) :
    listForEachSafeFrom links body head fuel (l.headD head) ((links s).next (l.headD head)) s =
      visit body l s := by
  induction l generalizing s fuel with
  | nil =>
    obtain ⟨fuel, rfl⟩ := Nat.exists_eq_add_of_lt hfuel
    rw [List.headD_nil, listForEachSafeFrom, if_pos rfl, visit]
  | cons x l ih =>
    obtain ⟨fuel, rfl⟩ := Nat.exists_eq_add_of_lt hfuel
    have hne : x ≠ head := fun heq ↦ hhead (heq ▸ List.mem_cons_self)
    rw [List.headD_cons, listForEachSafeFrom, if_neg hne, visit, (hahead x l s hI).next_eq]
    cases hbody : body x s with
    | none => rfl
    | some r =>
      obtain ⟨s', goOn⟩ := r
      cases goOn with
      | false => rfl
      | true =>
        exact ih (hkeep x l s s' hI hbody) (fun hmem ↦ hhead (List.mem_cons_of_mem _ hmem))
          (by rw [List.length_cons]; omega)

/-- `list_for_each` reads the successor after the body, which therefore has to leave it there. -/
theorem listForEachFrom_eq
    (hkeep : ∀ x l s s', I (x :: l) s → body x s = some (s', true) →
      I l s' ∧ (links s').next x = some (l.headD head)) {l : List α} {s : σ}
    {fuel : ℕ} (hI : I l s) (hhead : head ∉ l) (hfuel : l.length < fuel) :
    listForEachFrom links body head fuel (some (l.headD head)) s = visit body l s := by
  induction l generalizing s fuel with
  | nil =>
    obtain ⟨fuel, rfl⟩ := Nat.exists_eq_add_of_lt hfuel
    rw [List.headD_nil, listForEachFrom, if_pos rfl, visit]
  | cons x l ih =>
    obtain ⟨fuel, rfl⟩ := Nat.exists_eq_add_of_lt hfuel
    have hne : x ≠ head := fun heq ↦ hhead (heq ▸ List.mem_cons_self)
    rw [List.headD_cons, listForEachFrom, if_neg hne, visit]
    cases hbody : body x s with
    | none => rfl
    | some r =>
      obtain ⟨s', goOn⟩ := r
      cases goOn with
      | false => rfl
      | true =>
        obtain ⟨hI', hnext⟩ := hkeep x l s s' hI hbody
        simp only [Option.bind_eq_bind, Option.bind_some, ↓reduceIte, hnext]
        exact ih hI' (fun hmem ↦ hhead (List.mem_cons_of_mem _ hmem))
          (by rw [List.length_cons]; omega)

end

/-- The body of a loop that takes out the entries that satisfy `p`. -/
def deleteEach (p : α → Bool) (x : α) (m : Links α) : Option (Links α × Bool) :=
  if p x then (listDel x m).map (·, true) else some (m, true)

/-- The body of a loop that takes out the first entry that satisfies `p`. -/
def deleteFirst (p : α → Bool) (x : α) (m : Links α) : Option (Links α × Bool) :=
  if p x then (listDel x m).map (·, false) else some (m, true)

/-- What the loops do on the list of a head. -/
structure LoopsWork (m : Links α) (L : Lists α) (h : α) (l : List α) : Prop where
  /-- `list_for_each` visits the entries in order. -/
  visits {β : Type} (f : β → α → β) (b : β) {fuel : ℕ} (hfuel : l.length < fuel) :
    listForEach Prod.snd (fun x s ↦ some ((f s.1 x, s.2), true)) h fuel (b, m) =
      some (l.foldl f b, m)
  /-- An entry may be taken out before breaking off. -/
  deletesFirst (p : α → Bool) {fuel : ℕ} (hfuel : l.length < fuel) :
    ∃ m', listForEach id (deleteFirst p) h fuel m = some m' ∧ Carries m' (L.put h (l.eraseP p))
  /-- `list_for_each_safe` may take out any number of entries. -/
  deletesEach (p : α → Bool) {fuel : ℕ} (hfuel : l.length < fuel) :
    ∃ m', listForEachSafe id (deleteEach p) h fuel m = some m' ∧
      Carries m' (L.put h (l.filter fun x ↦ !p x))
  /-- `list_for_each` fails when it goes on from an entry that was taken out. -/
  fails (p : α → Bool) {fuel : ℕ} (hfuel : l.length < fuel) :
    (listForEach id (deleteEach p) h fuel m).isSome = l.all fun x ↦ !p x

section
variable {m : Links α} {L : Lists α} {h : α} {p : α → Bool} {x : α} {l done : List α}

/-- The list of `h` begins with what is done, and what lies ahead follows. -/
def Underway (L : Lists α) (h : α) (l : List α) (m : Links α) : Prop :=
  ∃ done, Carries m (L.put h (done ++ l))

theorem Underway.span (hI : Underway L h (x :: l) m) : Span m x l h := by
  obtain ⟨done, hm⟩ := hI
  exact (hm.ring h _ (Function.update_self ..)).split.2

/-- What was visited lies behind. -/
theorem Underway.next (hI : Underway L h (x :: l) m) : Underway L h l m := by
  obtain ⟨done, hm⟩ := hI
  exact ⟨done ++ [x], by rwa [List.append_assoc, List.singleton_append]⟩

theorem deleteEach_step (hm : Carries m (L.put h (done ++ x :: l))) :
    ∃ m', deleteEach p x m = some (m', true) ∧
      Carries m' (L.put h (done ++ [x].filter (fun y ↦ !p y) ++ l)) := by
  obtain ⟨m', hdel, hm'⟩ := hm.listDel (Function.update_self ..)
  rw [Lists.put_put] at hm'
  rw [deleteEach]
  cases hp : p x with
  | false => exact ⟨m, rfl, by simpa [hp] using hm⟩
  | true => exact ⟨m', by rw [if_pos rfl, hdel]; rfl, by simpa [hp] using hm'⟩

theorem visit_deleteEach (hm : Carries m (L.put h (done ++ l))) :
    ∃ m', visit (deleteEach p) l m = some m' ∧
      Carries m' (L.put h (done ++ l.filter fun x ↦ !p x)) := by
  induction l generalizing done m with
  | nil => exact ⟨m, rfl, hm⟩
  | cons x l ih =>
    obtain ⟨m₁, hbody, hm₁⟩ := deleteEach_step (p := p) hm
    obtain ⟨m₂, hvisit, hm₂⟩ := ih hm₁
    refine ⟨m₂, by rw [visit, hbody]; exact hvisit, ?_⟩
    rwa [List.append_assoc, ← List.filter_append] at hm₂

theorem visit_deleteFirst (hm : Carries m (L.put h (done ++ l))) :
    ∃ m', visit (deleteFirst p) l m = some m' ∧ Carries m' (L.put h (done ++ l.eraseP p)) := by
  induction l generalizing done m with
  | nil => exact ⟨m, rfl, hm⟩
  | cons x l ih =>
    cases hp : p x with
    | true =>
      obtain ⟨m', hdel, hm'⟩ := hm.listDel (Function.update_self ..)
      rw [Lists.put_put] at hm'
      refine ⟨m', ?_, by rwa [List.eraseP_cons_of_pos hp]⟩
      rw [visit, deleteFirst, hp, if_pos rfl, hdel]
      rfl
    | false =>
      rw [List.append_cons] at hm
      obtain ⟨m', hvisit, hm'⟩ := ih hm
      refine ⟨m', ?_, ?_⟩
      · rw [visit, deleteFirst, hp, if_neg Bool.false_ne_true]
        exact hvisit
      · rwa [List.eraseP_cons_of_neg (by simp [hp]), List.append_cons]

/-- A loop that goes on from an entry it took out follows `NULL`. -/
theorem isSome_listForEachFrom (hm : Carries m (L.put h (done ++ l))) {fuel : ℕ}
    (hfuel : l.length < fuel) :
    (listForEachFrom id (deleteEach p) h fuel (some (l.headD h)) m).isSome =
      l.all fun x ↦ !p x := by
  have hr := hm.ring h _ (Function.update_self ..)
  induction l generalizing done fuel with
  | nil =>
    obtain ⟨fuel, rfl⟩ := Nat.exists_eq_add_of_lt hfuel
    rw [List.headD_nil, listForEachFrom, if_pos rfl]
    rfl
  | cons x l ih =>
    obtain ⟨fuel, rfl⟩ := Nat.exists_eq_add_of_lt hfuel
    have hnot := hr.not_mem
    have hne : x ≠ h := fun heq ↦ hnot (heq ▸ by simp)
    have haround := hm.around (Function.update_self ..)
    rw [List.headD_cons, listForEachFrom, if_neg hne, deleteEach, List.all_cons]
    cases hp : p x with
    | true =>
      have hnull : ((m.join (done.getLastD h) (l.headD h)).clear x).next x = none :=
        Function.update_self ..
      rw [if_pos rfl, listDel_eq haround.1 haround.2]
      simp only [Option.map_some, Option.bind_eq_bind, Option.bind_some, ↓reduceIte, id, hnull,
        Bool.not_true, Bool.false_and]
      rw [listForEachFrom_null]
      rfl
    | false =>
      rw [List.append_cons] at hm
      simp only [Bool.false_eq_true, ↓reduceIte, Option.bind_eq_bind, Option.bind_some, id,
        haround.2, Bool.not_false, Bool.true_and]
      exact ih hm (by rw [List.length_cons]; omega) (by rwa [List.append_cons] at hr)

theorem Carries.loopsWork (hm : Carries m L) (hl : L h = some l) : LoopsWork m L h l := by
  have hput : Carries m (L.put h ([] ++ l)) := by rwa [List.nil_append, Lists.put_eq_self hl]
  have hr := hm.ring h l hl
  have hunder : Underway L h l m := ⟨[], hput⟩
  constructor
  · intro β f b fuel hfuel
    have hvisit : ∀ (l : List α) (b : β), visit (fun x (s : β × Links α) ↦
        some ((f s.1 x, s.2), true)) l (b, m) = some (l.foldl f b, m) := by
      intro l
      induction l with
      | nil => exact fun b ↦ rfl
      | cons x l ih => exact fun b ↦ ih (f b x)
    rw [listForEach, hr.span.next_eq, ← hvisit]
    refine listForEachFrom_eq (I := fun l s ↦ Underway L h l s.2) ?_ hunder hr.not_mem hfuel
    intro x l s s' hI hbody
    obtain rfl := (Prod.mk.inj (Option.some.inj hbody)).1
    exact ⟨hI.next, hI.span.next_eq⟩
  · intro p fuel hfuel
    obtain ⟨m', hvisit, hm'⟩ := visit_deleteFirst (p := p) hput
    refine ⟨m', ?_, hm'⟩
    rw [listForEach, id, hr.span.next_eq, ← hvisit]
    refine listForEachFrom_eq (I := Underway L h) ?_ hunder hr.not_mem hfuel
    intro x l s s' hI hbody
    -- the loop goes on only from an entry that stays
    rw [deleteFirst] at hbody
    split at hbody
    · obtain ⟨m₁, _, heq⟩ := Option.map_eq_some_iff.1 hbody
      cases heq
    · cases hbody
      exact ⟨hI.next, hI.span.next_eq⟩
  · intro p fuel hfuel
    obtain ⟨m', hvisit, hm'⟩ := visit_deleteEach (p := p) hput
    refine ⟨m', ?_, hm'⟩
    rw [listForEachSafe, id, hr.span.next_eq, ← hvisit]
    refine listForEachSafeFrom_eq (I := Underway L h) (fun _ _ _ hI ↦ hI.span) ?_ hunder
      hr.not_mem hfuel
    rintro x l s s' ⟨done, hs⟩ hbody
    obtain ⟨m₁, hstep, hm₁⟩ := deleteEach_step (p := p) hs
    obtain rfl := (Prod.mk.inj (Option.some.inj (hstep.symm.trans hbody))).1
    exact ⟨_, hm₁⟩
  · intro p fuel hfuel
    rw [listForEach, id, hr.span.next_eq]
    exact isSome_listForEachFrom hput hfuel

end

/-- **The loops work** on every list of a program. -/
theorem loopsWork_of_steps {L : Lists α} {cs : List (ListCall α)} {rs : List (Option Bool)}
    (m : Links α) (h : Lists.Steps .start cs rs L) :
    ∃ m', performCalls m cs = some (rs, m') ∧ ∀ h l, L h = some l → LoopsWork m' L h l := by
  obtain ⟨m', hcalls, hm'⟩ := (carries_start m).steps h
  exact ⟨m', hcalls, fun _ _ hl ↦ hm'.loopsWork hl⟩

/-- The list of the second head above. -/
theorem loopsWork_splice : ∃ (m' : Links (Fin 4)) (L : Lists (Fin 4)), L 1 = some [2, 3] ∧
    LoopsWork m' L 1 [2, 3] := by
  obtain ⟨L, -, hright, hsteps⟩ := steps_splice
  obtain ⟨m', -, hloops⟩ := loopsWork_of_steps ⟨fun _ ↦ none, fun _ ↦ none⟩ hsteps
  exact ⟨m', L, hright, hloops 1 [2, 3] hright⟩

end Mblue
