/-
This file develops runs of a partial step function: the states reachable from a start state
by steps that all meet a condition, the rule that an invariant kept by every such step holds
in every reachable state, and runs given by a list of actions. A simulation between two step
functions makes them show the same outputs along every list of actions.
-/

import Mathlib.Tactic

namespace LevelDb.Lib

variable {State Action : Type}

/-- The states reachable from `start` by steps taken under the condition `allowed`. -/
inductive Reachable (step : State → Action → Option State) (allowed : State → Action → Prop)
    (start : State) : State → Prop
  | refl : Reachable step allowed start start
  | next {state state' : State} (action : Action) :
      Reachable step allowed start state → allowed state action →
        step state action = some state' → Reachable step allowed start state'

variable {step : State → Action → Option State} {allowed : State → Action → Prop} {start : State}

/-- An invariant of the start state that every allowed step keeps holds in every reachable
state. -/
theorem Reachable.invariant {invariant : State → Prop} (initially : invariant start)
    (kept : ∀ state action state', invariant state → allowed state action →
      step state action = some state' → invariant state') {state : State}
    (reachable : Reachable step allowed start state) : invariant state := by
  induction reachable with
  | refl => exact initially
  | next action _ isAllowed taken inductionHypothesis =>
    exact kept _ action _ inductionHypothesis isAllowed taken

/-- Runs can be joined. -/
theorem Reachable.trans {middle state : State} (first : Reachable step allowed start middle)
    (second : Reachable step allowed middle state) : Reachable step allowed start state := by
  induction second with
  | refl => exact first
  | next action _ isAllowed taken inductionHypothesis =>
    exact .next action inductionHypothesis isAllowed taken

/-- Take the steps of a list in order, as long as they are allowed. -/
def run (step : State → Action → Option State) (allowed : State → Action → Prop)
    [∀ state action, Decidable (allowed state action)] : State → List Action → Option State
  | state, [] => some state
  | state, action :: rest =>
    if allowed state action then (step state action).bind fun state' => run step allowed state' rest
    else none

theorem Reachable.run [∀ state action, Decidable (allowed state action)] {state state' : State}
    (reachable : Reachable step allowed start state) {actions : List Action}
    (result : run step allowed state actions = some state') :
    Reachable step allowed start state' := by
  induction actions generalizing state with
  | nil => exact Option.some.inj result ▸ reachable
  | cons action rest inductionHypothesis =>
    rw [LevelDb.Lib.run] at result
    split at result
    · rename_i isAllowed
      obtain ⟨middle, taken, ending⟩ := Option.bind_eq_some_iff.mp result
      exact inductionHypothesis (.next action reachable isAllowed taken) ending
    · cases result

/-- A run that ends in a state with a decidable property reaches such a state. -/
theorem exists_of_run [∀ state action, Decidable (allowed state action)] {actions : List Action}
    {property : State → Bool} (holds : (run step allowed start actions).any property = true) :
    ∃ state, Reachable step allowed start state ∧ property state = true := by
  obtain ⟨state, result, isTrue⟩ := (Option.any_eq_true _ _).mp holds
  exact ⟨state, Reachable.run .refl result, isTrue⟩

/-- A guarded step was taken under its guard. -/
theorem of_guard {guard : Prop} [Decidable guard] {taken state : State}
    (result : (if guard then some taken else none) = some state) : guard ∧ taken = state := by
  obtain ⟨holds, same⟩ := Option.ite_none_right_eq_some.mp result
  exact ⟨holds, Option.some.inj same⟩

/-! ### Simulation -/

/-- The outputs after each action of a list; `none` when an action is refused. -/
def trace {Output : Type} (step : State → Action → Option State) (output : State → Output) :
    State → List Action → Option (List Output)
  | _, [] => some []
  | state, action :: rest =>
    (step state action).bind fun state' =>
      (trace step output state' rest).map fun outputs => output state' :: outputs

/-- Related states that show the same output, and whose steps stay related or are both refused,
show the same outputs along every list of actions. -/
theorem trace_eq {Abstract Output : Type} {step : State → Action → Option State}
    {absStep : Abstract → Action → Option Abstract} {output : State → Output}
    {absOutput : Abstract → Output} {related : State → Abstract → Prop}
    (shows : ∀ state abs, related state abs → output state = absOutput abs)
    (simulates : ∀ state abs action, related state abs →
      Option.Rel related (step state action) (absStep abs action))
    {state : State} {abs : Abstract} (start : related state abs) (actions : List Action) :
    trace step output state actions = trace absStep absOutput abs actions := by
  induction actions generalizing state abs with
  | nil => rfl
  | cons action rest inductionHypothesis =>
    have next := simulates state abs action start
    rw [trace, trace]
    cases taken : step state action with
    | none =>
      rw [taken] at next
      cases absTaken : absStep abs action with
      | none => rfl
      | some abs' => rw [absTaken] at next; cases next
    | some state' =>
      rw [taken] at next
      cases absTaken : absStep abs action with
      | none => rw [absTaken] at next; cases next
      | some abs' =>
        rw [absTaken] at next
        cases next with
        | some related' =>
          rw [Option.bind_some, Option.bind_some, inductionHypothesis related',
            shows state' abs' related']

end LevelDb.Lib
