import Mathlib

/-!
# Lists searched by a key

A list whose elements have a key each, searched from its front for the first element with a given
key. **While the keys are distinct the list is a partial map**: the place of an element does not
matter, appending an element under a new key defines the map there, and erasing an element leaves
the map undefined at its key and nowhere else.

## What is proved here

* `lookup_eq_some_iff` — the search finds the element with the key, wherever it stands.
* `lookup_append`, `lookup_erase` — what the two operations do to the map.
* `Distinct.append`, `Distinct.erase` — they keep the keys distinct.
-/

namespace KeyedList

variable {α κ : Type*} [DecidableEq κ] {key key' : α → κ} {k : κ} {l : List α} {a : α}

/-- The first element with the key. -/
def lookup (key : α → κ) (k : κ) (l : List α) : Option α := l.find? fun a ↦ key a == k

/-- No two elements have the same key. -/
def Distinct (key : α → κ) (l : List α) : Prop := (l.map key).Nodup

omit [DecidableEq κ] in
theorem Distinct.eq_of_key (h : Distinct key l) {b : α} (ha : a ∈ l) (hb : b ∈ l)
    (heq : key a = key b) : a = b :=
  List.inj_on_of_nodup_map h ha hb heq

theorem key_of_lookup (h : lookup key k l = some a) : key a = k := by
  have hkey := List.find?_some h
  exact beq_iff_eq.1 hkey

/-- **The search finds the element with the key.** -/
theorem lookup_eq_some_iff (h : Distinct key l) : lookup key k l = some a ↔ a ∈ l ∧ key a = k := by
  refine ⟨fun hfind ↦ ⟨List.mem_of_find?_eq_some hfind, key_of_lookup hfind⟩,
    fun ⟨hmem, hkey⟩ ↦ ?_⟩
  have hsome : (lookup key k l).isSome = true :=
    List.find?_isSome.2 ⟨a, hmem, beq_iff_eq.2 hkey⟩
  obtain ⟨b, hb⟩ := Option.isSome_iff_exists.1 hsome
  rw [hb, h.eq_of_key (List.mem_of_find?_eq_some hb) hmem ((key_of_lookup hb).trans hkey.symm)]

theorem lookup_eq_none_iff : lookup key k l = none ↔ ∀ a ∈ l, key a ≠ k := by
  rw [lookup, List.find?_eq_none]
  simp only [beq_iff_eq, ne_eq]

theorem lookup_congr (h : ∀ a ∈ l, key a = key' a) : lookup key k l = lookup key' k l := by
  unfold lookup
  induction l with
  | nil => rfl
  | cons b l ih =>
    rw [List.find?_cons, List.find?_cons, h b List.mem_cons_self,
      ih fun a ha ↦ h a (List.mem_cons_of_mem b ha)]

/-- An element under a new key. -/
theorem lookup_append (h : ∀ b ∈ l, key b ≠ key a) :
    lookup key k (l ++ [a]) = if k = key a then some a else lookup key k l := by
  unfold lookup
  rw [List.find?_append]
  split_ifs with hk
  · have hnone : l.find? (fun b ↦ key b == k) = none := lookup_eq_none_iff.2 fun b hb ↦ hk ▸ h b hb
    rw [hnone, Option.none_or, List.find?_cons, beq_iff_eq.2 hk.symm]
  · rw [List.find?_cons, beq_eq_false_iff_ne.2 (Ne.symm hk), List.find?_nil, Option.or_none]

omit [DecidableEq κ] in
theorem Distinct.append (h : Distinct key l) (hnew : ∀ b ∈ l, key b ≠ key a) :
    Distinct key (l ++ [a]) := by
  rw [Distinct, List.map_append, List.map_singleton, List.nodup_append]
  refine ⟨h, List.nodup_singleton _, fun x hx y hy heq ↦ ?_⟩
  obtain ⟨b, hb, rfl⟩ := List.mem_map.1 hx
  exact hnew b hb (heq.trans (List.mem_singleton.1 hy))

variable [DecidableEq α]

omit [DecidableEq κ] in
theorem Distinct.erase (h : Distinct key l) (a : α) : Distinct key (l.erase a) :=
  h.sublist (List.erase_sublist.map key)

omit [DecidableEq κ] in
/-- What is left under the key of an element that goes. -/
theorem Distinct.key_ne_of_mem_erase (h : Distinct key l) (ha : a ∈ l) {b : α}
    (hb : b ∈ l.erase a) : key b ≠ key a := by
  intro heq
  have hnodup : l.Nodup := List.Nodup.of_map key h
  obtain rfl := h.eq_of_key (List.mem_of_mem_erase hb) ha heq
  exact hnodup.not_mem_erase hb

/-- An element goes. -/
theorem lookup_erase (h : Distinct key l) (ha : a ∈ l) :
    lookup key k (l.erase a) = if k = key a then none else lookup key k l := by
  split_ifs with hk
  · exact lookup_eq_none_iff.2 fun b hb ↦ hk ▸ h.key_ne_of_mem_erase ha hb
  · cases hfind : lookup key k l with
    | none =>
      exact lookup_eq_none_iff.2 fun b hb ↦
        lookup_eq_none_iff.1 hfind b (List.mem_of_mem_erase hb)
    | some b =>
      obtain ⟨hb, hkey⟩ := (lookup_eq_some_iff h).1 hfind
      refine (lookup_eq_some_iff (h.erase a)).2 ⟨(List.mem_erase_of_ne ?_).2 hb, hkey⟩
      exact fun heq ↦ hk (heq ▸ hkey.symm)

end KeyedList
