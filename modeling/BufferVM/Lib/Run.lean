/-
  Lib/Run.lean --- runs of a partial step function under a condition.

  A system is a partial function from a state and a label to a state.  A run is a list
  of labels, each of which meets a condition in the state it is taken in.  There are two
  rules: what one step keeps, every run keeps; and a run whose condition can be tested can
  be found by running it.
-/
import Mathlib.Tactic.Common

set_option autoImplicit false

namespace Run

variable {S L : Type} {step : S → L → Option S} {ok : S → L → Prop}

/-- A run from one state to another. -/
inductive Steps (step : S → L → Option S) (ok : S → L → Prop) : S → List L → S → Prop
  | nil (s : S) : Steps step ok s [] s
  | cons {s t u : S} {l : L} {ls : List L} (hok : ok s l) (hstep : step s l = some t)
      (hrest : Steps step ok t ls u) : Steps step ok s (l :: ls) u

/-- What one step keeps, every run keeps. -/
theorem Steps.invariant (Inv : S → Prop) {s t : S} {ls : List L} (h : Steps step ok s ls t)
    (hkeep : ∀ s l t, Inv s → ok s l → step s l = some t → Inv t) (hs : Inv s) : Inv t := by
  induction h with
  | nil s => exact hs
  | cons hok hstep _ ih => exact ih (hkeep _ _ _ hs hok hstep)

/-- Run a list of labels, testing each before it is taken. -/
def exec (step : S → L → Option S) (test : S → L → Bool) : List L → S → Option S
  | [], s => some s
  | l :: ls, s => if test s l then (step s l).bind (exec step test ls) else none

/-- A run that has been tested is a run. -/
theorem Steps.of_exec {test : S → L → Bool} (hok : ∀ s l, test s l = true → ok s l) (ls : List L) :
    ∀ {s t : S}, exec step test ls s = some t → Steps step ok s ls t := by
  induction ls with
  | nil =>
      intro s t h
      obtain rfl := Option.some.inj h
      exact .nil s
  | cons l ls ih =>
      intro s t h
      rw [exec] at h
      split at h
      · rename_i htest
        obtain ⟨u, hu, hrest⟩ := Option.bind_eq_some_iff.mp h
        exact .cons (hok s l htest) hu (ih hrest)
      · exact absurd h (by simp)

end Run
