import Mathlib

/-!
# Runs of a partial step function

A system is given by a partial function `step : S → L → Option S`: in state `s` the label `l`
names one atomic step, and `step s l = none` says that this step is not possible there (the thread
is blocked, or the step has no defined result). A **run** is a finite sequence of possible steps.

Runs are taken under a condition `ok : S → L → Prop` on the state a step starts from, so that
"in every run whose steps all meet the condition" is `Run step ok`. A run under a stronger
condition is a run under a weaker one (`Run.mono`), which is how an invariant proved once for all
runs is used inside the runs of a more special theorem.

## What is proved here

* `Run.invariant` — a property of the first state that every allowed step keeps holds in every
  state reached; `Run.invariant_of` is the same rule with an invariant already known.
* `Run.trans`, `run_exec` — runs compose, and the executable iteration `exec` of `step` along a
  list of labels yields a run under the condition it checks.
-/

variable {S L : Type*}

/-- `Run step ok s t`: the state `t` is reached from `s` by steps that all meet `ok`. -/
inductive Run (step : S → L → Option S) (ok : S → L → Prop) (s : S) : S → Prop
  | refl : Run step ok s s
  | tail {t u : S} {l : L} (h : Run step ok s t) (hok : ok t l) (hstep : step t l = some u) :
      Run step ok s u

namespace Run

variable {step : S → L → Option S} {ok ok' : S → L → Prop} {s t u : S}

/-- **The invariant rule.** -/
theorem invariant {P : S → Prop} (h : Run step ok s t) (hs : P s)
    (hstep : ∀ {a b : S} {l : L}, P a → ok a l → step a l = some b → P b) : P t := by
  induction h with
  | refl => exact hs
  | tail _ hok hst ih => exact hstep ih hok hst

/-- The invariant rule over an invariant `I` that is known along the run. -/
theorem invariant_of {I P : S → Prop} (h : Run step ok s t)
    (hI : ∀ {a : S}, Run step ok s a → I a) (hs : P s)
    (hstep : ∀ {a b : S} {l : L}, I a → P a → ok a l → step a l = some b → P b) : P t := by
  induction h with
  | refl => exact hs
  | tail hr hok hst ih => exact hstep (hI hr) ih hok hst

/-- A weaker condition has more runs. -/
theorem mono (h : Run step ok s t) (hle : ∀ {a : S} {l : L}, ok a l → ok' a l) :
    Run step ok' s t := by
  induction h with
  | refl => exact .refl
  | tail _ hok hst ih => exact .tail ih (hle hok) hst

theorem single {l : L} (hok : ok s l) (hstep : step s l = some t) : Run step ok s t :=
  .tail .refl hok hstep

theorem trans (h₁ : Run step ok s t) (h₂ : Run step ok t u) : Run step ok s u := by
  induction h₂ with
  | refl => exact h₁
  | tail _ hok hst ih => exact .tail ih hok hst

end Run

/-! ### Executable runs -/

/-- Take the steps named by a list of labels, one after the other, as long as they are possible and
meet the condition. -/
def exec (step : S → L → Option S) (ok : S → L → Prop) [∀ s l, Decidable (ok s l)] :
    S → List L → Option S
  | s, [] => some s
  | s, l :: ls => if ok s l then (step s l).bind fun t ↦ exec step ok t ls else none

/-- An executed list of steps is a run. -/
theorem run_exec {step : S → L → Option S} {ok : S → L → Prop} [∀ s l, Decidable (ok s l)]
    {s t : S} {ls : List L} (h : exec step ok s ls = some t) : Run step ok s t := by
  induction ls generalizing s with
  | nil =>
    rw [exec, Option.some.injEq] at h
    exact h ▸ .refl
  | cons l ls ih =>
    rw [exec] at h
    split at h
    · next hok =>
      obtain ⟨u, hu, h⟩ := Option.bind_eq_some_iff.1 h
      exact (Run.single hok hu).trans (ih h)
    · cases h

/-- What holds of every state that runs lead to holds of the state an executed list leads to, with a
value computed from that state. -/
theorem exists_of_exec_eq {step : S → L → Option S} {ok : S → L → Prop}
    [∀ s l, Decidable (ok s l)] {s : S} {ls : List L} {V : Type*} {f : S → V} {v : V}
    {P : S → Prop} (h : (exec step ok s ls).map f = some v) (hP : ∀ t, Run step ok s t → P t) :
    ∃ t, exec step ok s ls = some t ∧ f t = v ∧ P t := by
  obtain ⟨t, ht, hv⟩ := Option.map_eq_some_iff.1 h
  exact ⟨t, ht, hv, hP t (run_exec ht)⟩
