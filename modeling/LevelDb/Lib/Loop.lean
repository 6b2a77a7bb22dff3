/-
This file develops loops that may not end. A round of a loop gives the next state or the result, and
a run is given the number of rounds it may take. A loop ends with a result when every larger number
of rounds gives that result: a measure that falls in every round makes it end, and it never ends
when every round of some states leads to such a state again.
-/

import Mathlib.Tactic

namespace LevelDb.Lib

variable {State Result : Type}

/-- At most `fuel` rounds of a loop. -/
def loop (round : State → State ⊕ Result) : Nat → State → Option Result
  | 0, _ => none
  | fuel + 1, state =>
    match round state with
    | .inl next => loop round fuel next
    | .inr result => some result

/-- A run ends with a result, as soon as it is given enough rounds. -/
def EndsWith (run : Nat → Option Result) (result : Result) : Prop :=
  ∃ enough, ∀ fuel, enough ≤ fuel → run fuel = some result

theorem EndsWith.unique {run : Nat → Option Result} {first second : Result}
    (isFirst : EndsWith run first) (isSecond : EndsWith run second) : first = second := by
  obtain ⟨enough, runs⟩ := isFirst
  obtain ⟨enough', runs'⟩ := isSecond
  have same := (runs _ (le_max_left enough enough')).symm.trans (runs' _ (le_max_right enough enough'))
  exact Option.some.inj same

variable {round : State → State ⊕ Result} {state next : State} {result : Result} {fuel : Nat}

theorem loop_succ_of_next (isNext : round state = .inl next) :
    loop round (fuel + 1) state = loop round fuel next := by
  rw [loop, isNext]

theorem loop_succ_of_result (isResult : round state = .inr result) :
    loop round (fuel + 1) state = some result := by
  rw [loop, isResult]

/-- More rounds do not change a result. -/
theorem loop_mono {more : Nat} (ends : loop round fuel state = some result) (le : fuel ≤ more) :
    loop round more state = some result := by
  induction fuel generalizing state more with
  | zero => cases ends
  | succ fuel inductionHypothesis =>
    obtain ⟨more, rfl⟩ : ∃ other, more = other + 1 := ⟨more - 1, by omega⟩
    cases taken : round state with
    | inl next =>
      rw [loop_succ_of_next taken] at ends ⊢
      exact inductionHypothesis ends (Nat.le_of_succ_le_succ le)
    | inr result' =>
      rw [loop_succ_of_result taken] at ends ⊢
      exact ends

theorem endsWith_of_loop (ends : loop round fuel state = some result) :
    EndsWith (fun fuel => loop round fuel state) result :=
  ⟨fuel, fun _ le => loop_mono ends le⟩

theorem exists_loop_of_endsWith (ends : EndsWith (fun fuel => loop round fuel state) result) :
    ∃ fuel, loop round fuel state = some result := by
  obtain ⟨enough, runs⟩ := ends
  exact ⟨enough, runs enough le_rfl⟩

theorem endsWith_loop_of_result (isResult : round state = .inr result) :
    EndsWith (fun fuel => loop round fuel state) result :=
  endsWith_of_loop (loop_succ_of_result isResult : loop round 1 state = some result)

theorem endsWith_loop_of_next (isNext : round state = .inl next)
    (ends : EndsWith (fun fuel => loop round fuel next) result) :
    EndsWith (fun fuel => loop round fuel state) result := by
  obtain ⟨enough, runs⟩ := ends
  have atEnough : loop round (enough + 1) state = some result :=
    (loop_succ_of_next isNext).trans (runs enough le_rfl)
  exact endsWith_of_loop atEnough

/-- A loop ends when, on the states of an invariant, a measure falls in every round; the last round
starts from such a state. -/
theorem exists_endsWith_loop {invariant : State → Prop} (measure : State → Nat)
    (falls : ∀ state next, invariant state → round state = .inl next →
      invariant next ∧ measure next < measure state)
    {state : State} (holds : invariant state) :
    ∃ last result, invariant last ∧ round last = .inr result ∧
      EndsWith (fun fuel => loop round fuel state) result := by
  cases taken : round state with
  | inl next =>
    have falling := falls state next holds taken
    obtain ⟨last, result, atLast, isResult, ends⟩ := exists_endsWith_loop measure falls falling.1
    exact ⟨last, result, atLast, isResult, endsWith_loop_of_next taken ends⟩
  | inr result => exact ⟨state, result, holds, taken, endsWith_loop_of_result taken⟩
termination_by measure state
decreasing_by exact falling.2

/-- A loop never ends from a state whose rounds lead to such states again and again. -/
theorem loop_eq_none_of_stuck {stuck : State → Prop}
    (stays : ∀ state, stuck state → ∃ next, round state = .inl next ∧ stuck next)
    (holds : stuck state) (fuel : Nat) : loop round fuel state = none := by
  induction fuel generalizing state with
  | zero => rfl
  | succ fuel inductionHypothesis =>
    obtain ⟨next, taken, again⟩ := stays state holds
    rw [loop_succ_of_next taken]
    exact inductionHypothesis again

end LevelDb.Lib
