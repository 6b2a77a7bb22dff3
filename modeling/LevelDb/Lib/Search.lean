/-
This file develops the binary searches that the lookups of the program share: a half-open
index range narrowed to the partition point of a predicate that holds on an initial segment,
and a closed range narrowed to the last index at which such a predicate holds.
-/

import Mathlib.Tactic

namespace LevelDb.Lib

/-- One run of the loop `while (left < right)`: probe the middle index and continue on the
right half when the predicate holds there, on the left half otherwise. The fuel bounds the
number of rounds; `right - left` rounds always suffice. -/
def lowerBoundLoop (below : Nat → Bool) : Nat → Nat → Nat → Nat
  | 0, _, right => right
  | fuel + 1, left, right =>
    if left < right then
      let mid := (left + right) / 2
      if below mid then lowerBoundLoop below fuel (mid + 1) right
      else lowerBoundLoop below fuel left mid
    else right

/-- The partition point of `below` on `[0, size)`. -/
def lowerBound (below : Nat → Bool) (size : Nat) : Nat :=
  lowerBoundLoop below size 0 size

/-- The loop returns the partition point of its range: with enough fuel, and a predicate
that is never true after being false, the result lies in the range, the predicate holds
before it and fails from it on. -/
theorem lowerBoundLoop_spec (below : Nat → Bool) (fuel left right : Nat)
    (enough : right - left ≤ fuel) (ordered : left ≤ right)
    (initial : ∀ first second, first ≤ second → second < right → below second = true →
      below first = true) :
    left ≤ lowerBoundLoop below fuel left right ∧
      lowerBoundLoop below fuel left right ≤ right ∧
      (∀ index, left ≤ index → index < lowerBoundLoop below fuel left right →
        below index = true) ∧
      (∀ index, lowerBoundLoop below fuel left right ≤ index → index < right →
        below index = false) := by
  induction fuel generalizing left right with
  | zero =>
    have same : left = right := by omega
    subst same
    simp only [lowerBoundLoop]
    exact ⟨le_rfl, le_rfl, fun index lower upper => by omega, fun index lower upper => by omega⟩
  | succ fuel inductionHypothesis =>
    rw [lowerBoundLoop]
    by_cases nonempty : left < right
    · rw [if_pos nonempty]
      have midLower : left ≤ (left + right) / 2 := by omega
      have midUpper : (left + right) / 2 < right := by omega
      by_cases probe : below ((left + right) / 2) = true
      · simp only [probe, if_true]
        obtain ⟨lower, upper, before, after⟩ := inductionHypothesis ((left + right) / 2 + 1) right
          (by omega) (by omega) initial
        refine ⟨by omega, upper, fun index indexLower indexUpper => ?_, after⟩
        by_cases early : index ≤ (left + right) / 2
        · exact initial index _ early midUpper probe
        · exact before index (by omega) indexUpper
      · simp only [probe, if_false, Bool.false_eq_true]
        obtain ⟨lower, upper, before, after⟩ := inductionHypothesis left ((left + right) / 2)
          (by omega) midLower
          (fun first second order bound => initial first second order (by omega))
        refine ⟨lower, by omega, before, fun index indexLower indexUpper => ?_⟩
        by_cases late : index < (left + right) / 2
        · exact after index indexLower late
        · by_contra holds
          exact probe (initial _ index (by omega) indexUpper (by simpa using holds))
    · rw [if_neg nonempty]
      exact ⟨ordered, le_rfl, fun index lower upper => by omega,
        fun index lower upper => by omega⟩

theorem lowerBound_le (below : Nat → Bool) (size : Nat)
    (initial : ∀ first second, first ≤ second → second < size → below second = true →
      below first = true) : lowerBound below size ≤ size :=
  (lowerBoundLoop_spec below size 0 size (by omega) (by omega) initial).2.1

theorem below_of_lt_lowerBound (below : Nat → Bool) (size : Nat)
    (initial : ∀ first second, first ≤ second → second < size → below second = true →
      below first = true) (index : Nat) (early : index < lowerBound below size) :
    below index = true :=
  (lowerBoundLoop_spec below size 0 size (by omega) (by omega) initial).2.2.1 index
    (by omega) early

theorem not_below_of_lowerBound_le (below : Nat → Bool) (size : Nat)
    (initial : ∀ first second, first ≤ second → second < size → below second = true →
      below first = true) (index : Nat) (late : lowerBound below size ≤ index)
    (bound : index < size) : below index = false :=
  (lowerBoundLoop_spec below size 0 size (by omega) (by omega) initial).2.2.2 index late bound

/-! ### The last index at which a predicate holds -/

/-- One run of the loop `while (left < right)` with the middle rounded up: continue from the
middle when the predicate holds there, before it otherwise. -/
def lastBelowLoop (below : Nat → Bool) : Nat → Nat → Nat → Nat
  | 0, left, _ => left
  | fuel + 1, left, right =>
    if left < right then
      let mid := (left + right + 1) / 2
      if below mid then lastBelowLoop below fuel mid right
      else lastBelowLoop below fuel left (mid - 1)
    else left

/-- The loop ends where it started or where the predicate holds. -/
theorem lastBelowLoop_below (below : Nat → Bool) (fuel left right : Nat) :
    lastBelowLoop below fuel left right = left ∨
      below (lastBelowLoop below fuel left right) = true := by
  induction fuel generalizing left right with
  | zero => exact Or.inl rfl
  | succ fuel inductionHypothesis =>
    rw [lastBelowLoop]
    split
    · simp only
      split
      · rename_i probe
        rcases inductionHypothesis ((left + right + 1) / 2) right with same | holds
        · rw [same]
          exact Or.inr probe
        · exact Or.inr holds
      · exact inductionHypothesis left _
    · exact Or.inl rfl

end LevelDb.Lib
