import Mathlib

/-!
# Chains of pointers

`next` sends a node to the node it points to, if it points to one. `Path next a l` says that `l` are
the nodes met from `a` on, up to one that points nowhere. Over finitely many nodes without a cycle
there is exactly one path from each node (`exists_path`, `Path.unique`).
-/

namespace PointerChain

variable {α : Type*} (next : α → Option α)

/-- One node points to another. -/
def PointsTo (a b : α) : Prop :=
  next a = some b

/-- No node is met again by following the pointers from it. -/
def Acyclic : Prop :=
  ∀ a, ¬Relation.TransGen (PointsTo next) a a

/-- The nodes met from a node on. -/
inductive Path : α → List α → Prop
  | stop {a : α} (h : next a = none) : Path a [a]
  | step {a b : α} {l : List α} (h : next a = some b) (hl : Path b l) : Path a (a :: l)

variable {next}

/-- There is only one way to follow the pointers. -/
theorem Path.unique {a : α} {l l' : List α} (h : Path next a l) (h' : Path next a l') : l = l' := by
  induction h generalizing l' with
  | stop hnone =>
    cases h' with
    | stop => rfl
    | step hsome => exact absurd (hsome.symm.trans hnone) (by simp)
  | step hsome _ ih =>
    cases h' with
    | stop hnone => exact absurd (hsome.symm.trans hnone) (by simp)
    | step hsome' hl' =>
      obtain rfl := Option.some.inj (hsome.symm.trans hsome')
      rw [ih hl']

/-- Nodes that come to lie lower and lower are not met again. -/
theorem acyclic_of_rank (rank : α → ℕ) (h : ∀ a b, next a = some b → rank b < rank a) :
    Acyclic next := by
  have hlower {a b : α} (hab : Relation.TransGen (PointsTo next) a b) : rank b < rank a := by
    induction hab with
    | single hab => exact h _ _ hab
    | tail _ hbc ih => exact (h _ _ hbc).trans ih
  exact fun a ha ↦ (hlower ha).false

theorem Path.ne_nil {a : α} {l : List α} (h : Path next a l) : l ≠ [] := by
  cases h with
  | stop => exact List.cons_ne_nil _ _
  | step => exact List.cons_ne_nil _ _

/-- Without a cycle the pointers of finitely many nodes can be followed only finitely far. -/
theorem Acyclic.wellFounded [Finite α] (h : Acyclic next) :
    WellFounded fun b a ↦ PointsTo next a b := by
  have : Std.Irrefl fun b a : α ↦ Relation.TransGen (PointsTo next) a b := ⟨h⟩
  have : IsTrans α fun b a ↦ Relation.TransGen (PointsTo next) a b :=
    ⟨fun _ _ _ hab hbc ↦ hbc.trans hab⟩
  have hwf := Finite.wellFounded_of_trans_of_irrefl
    fun b a ↦ Relation.TransGen (PointsTo next) a b
  exact Subrelation.wf (fun hba ↦ Relation.TransGen.single hba) hwf

/-- **Every chain ends.** -/
theorem exists_path [Finite α] (h : Acyclic next) (a : α) : ∃ l, Path next a l := by
  induction a using h.wellFounded.induction with
  | _ a ih =>
    cases hnext : next a with
    | none => exact ⟨[a], .stop hnext⟩
    | some b =>
      obtain ⟨l, hl⟩ := ih b hnext
      exact ⟨a :: l, .step hnext hl⟩

end PointerChain
