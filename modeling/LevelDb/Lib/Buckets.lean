/-
This file develops arrays of lists: the elements of all lists together, and what replacing one of
the lists does to them.
-/

import Mathlib.Algebra.BigOperators.Fin
import Mathlib.Data.List.Count
import Mathlib.Tactic

namespace LevelDb.Lib

variable {γ : Type}

/-- The elements of the first lists of an array, list by list. -/
def gather (count : Nat) (lists : Nat → List γ) : List γ := (List.range count).flatMap lists

theorem mem_gather {count : Nat} {lists : Nat → List γ} {element : γ} :
    element ∈ gather count lists ↔ ∃ index < count, element ∈ lists index := by
  simp only [gather, List.mem_flatMap, List.mem_range]

@[simp] theorem gather_nil (count : Nat) : gather count (fun _ => ([] : List γ)) = [] := by
  simp [gather]

theorem gather_succ (count : Nat) (lists : Nat → List γ) :
    gather (count + 1) lists = gather count lists ++ lists count := by
  rw [gather, List.range_succ, List.flatMap_append, List.flatMap_singleton]
  rfl

theorem gather_congr {count : Nat} {lists lists' : Nat → List γ}
    (same : ∀ index < count, lists' index = lists index) :
    gather count lists' = gather count lists :=
  List.flatMap_congr fun index member => same index (List.mem_range.mp member)

/-- Replacing one list exchanges its elements. -/
theorem gather_update {count index : Nat} {lists : Nat → List γ} (inRange : index < count)
    (new : List γ) :
    (gather count (Function.update lists index new) ++ lists index).Perm
      (gather count lists ++ new) := by
  induction count with
  | zero => exact absurd inRange (Nat.not_lt_zero index)
  | succ count inductionHypothesis =>
    rw [gather_succ, gather_succ]
    by_cases last : index = count
    · have before : gather count (Function.update lists index new) = gather count lists :=
        gather_congr fun other less => Function.update_of_ne (by omega) _ _
      rw [before, last, Function.update_self, List.append_assoc, List.append_assoc]
      exact List.perm_append_comm.append_left _
    · have others := inductionHypothesis (by omega)
      rw [Function.update_of_ne (Ne.symm last)]
      calc (gather count (Function.update lists index new) ++ lists count ++ lists index).Perm
            (gather count (Function.update lists index new) ++ (lists index ++ lists count)) := by
              rw [List.append_assoc]
              exact List.perm_append_comm.append_left _
        _ = (gather count (Function.update lists index new) ++ lists index) ++ lists count := by
              rw [List.append_assoc]
        _ |>.Perm ((gather count lists ++ new) ++ lists count) := others.append_right _
        _ = gather count lists ++ (new ++ lists count) := List.append_assoc _ _ _
        _ |>.Perm (gather count lists ++ (lists count ++ new)) :=
              List.perm_append_comm.append_left _
        _ = gather count lists ++ lists count ++ new := (List.append_assoc _ _ _).symm

end LevelDb.Lib
