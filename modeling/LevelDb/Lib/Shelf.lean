/-
This file develops directories of files that are named by numbers: the numbers of the files that
exist, and what each of them holds.
-/

import Mathlib.Data.Finset.Basic
import Mathlib.Data.Finset.Lattice.Fold
import Mathlib.Data.Finset.Sort
import Mathlib.Logic.Function.Basic
import Mathlib.Order.Lattice.Nat

namespace LevelDb.Lib

/-- The numbers of the files that exist, and their contents. What a number that does not exist is
mapped to has no meaning. -/
structure Shelf (γ : Type) where
  numbers : Finset Nat
  file : Nat → γ

namespace Shelf

variable {γ : Type}

/-- Create a file, or write to one that exists. -/
def put (shelf : Shelf γ) (number : Nat) (contents : γ) : Shelf γ :=
  ⟨insert number shelf.numbers, Function.update shelf.file number contents⟩

def remove (shelf : Shelf γ) (number : Nat) : Shelf γ :=
  { shelf with numbers := shelf.numbers.erase number }

/-- Change the contents of every file. -/
def map (change : Nat → γ → γ) (shelf : Shelf γ) : Shelf γ :=
  { shelf with file := fun number => change number (shelf.file number) }

@[simp] theorem put_file_self (shelf : Shelf γ) (number : Nat) (contents : γ) :
    (shelf.put number contents).file number = contents :=
  Function.update_self _ _ _

theorem put_file_of_ne (shelf : Shelf γ) {number other : Nat} (different : other ≠ number)
    (contents : γ) : (shelf.put number contents).file other = shelf.file other :=
  Function.update_of_ne different _ _

@[simp] theorem mem_put {shelf : Shelf γ} {number other : Nat} {contents : γ} :
    other ∈ (shelf.put number contents).numbers ↔ other = number ∨ other ∈ shelf.numbers :=
  Finset.mem_insert

@[simp] theorem mem_remove {shelf : Shelf γ} {number other : Nat} :
    other ∈ (shelf.remove number).numbers ↔ other ≠ number ∧ other ∈ shelf.numbers :=
  Finset.mem_erase

/-- What holds of every file after one was written holds of it and held of the others. -/
theorem forall_put {shelf : Shelf γ} {number : Nat} {contents : γ} {property : Nat → γ → Prop}
    (new : property number contents)
    (old : ∀ other ∈ shelf.numbers, other ≠ number → property other (shelf.file other)) :
    ∀ other ∈ (shelf.put number contents).numbers,
      property other ((shelf.put number contents).file other) := by
  intro other member
  by_cases same : other = number
  · rw [same, put_file_self]
    exact new
  · rw [put_file_of_ne _ same]
    exact old other ((mem_put.mp member).resolve_left same) same

/-! ### Many files -/

section PutAll

variable {ι : Type} (number : ι → Nat) (contents : ι → γ)

/-- Writing other files leaves a file as it is. -/
theorem foldl_put_of_ne {items : List ι} {shelf : Shelf γ} {other : Nat}
    (different : ∀ item ∈ items, number item ≠ other) :
    let written := items.foldl (fun shelf item => shelf.put (number item) (contents item)) shelf
    (other ∈ shelf.numbers → other ∈ written.numbers) ∧ written.file other = shelf.file other := by
  induction items generalizing shelf with
  | nil => exact ⟨id, rfl⟩
  | cons item rest inductionHypothesis =>
    obtain ⟨isFirst, isRest⟩ := List.forall_mem_cons.mp different
    obtain ⟨there, same⟩ :=
      @inductionHypothesis (shelf.put (number item) (contents item)) isRest
    exact ⟨fun member => there (mem_put.mpr (Or.inr member)),
      same.trans (put_file_of_ne _ isFirst.symm _)⟩

/-- Files of different numbers that are written one after the other are all there. -/
theorem foldl_put_of_mem {items : List ι} {shelf : Shelf γ} (distinct : (items.map number).Nodup)
    {item : ι} (member : item ∈ items) :
    let written := items.foldl (fun shelf item => shelf.put (number item) (contents item)) shelf
    number item ∈ written.numbers ∧ written.file (number item) = contents item := by
  induction items generalizing shelf with
  | nil => cases member
  | cons first rest inductionHypothesis =>
    obtain ⟨isNew, others⟩ := List.nodup_cons.mp distinct
    obtain rfl | inRest := List.mem_cons.mp member
    · have frame := @foldl_put_of_ne _ _ number contents rest
        (shelf.put (number item) (contents item)) (number item)
        (fun other inRest same => isNew (same ▸ List.mem_map_of_mem inRest))
      exact ⟨frame.1 (mem_put.mpr (Or.inl rfl)), frame.2.trans (put_file_self _ _ _)⟩
    · exact inductionHypothesis others inRest

end PutAll

end Shelf

/-! ### Sorted numbers -/

/-- The numbers in ascending order, in a form that evaluates. -/
def ascending (numbers : Finset Nat) : List Nat :=
  (List.range (numbers.sup Nat.succ)).filter fun number => number ∈ numbers

@[simp] theorem mem_ascending {numbers : Finset Nat} {number : Nat} :
    number ∈ ascending numbers ↔ number ∈ numbers := by
  rw [ascending, List.mem_filter, List.mem_range, decide_eq_true_eq]
  exact and_iff_right_of_imp fun member => Finset.le_sup (f := Nat.succ) member

theorem ascending_pairwise (numbers : Finset Nat) : (ascending numbers).Pairwise (· < ·) :=
  List.pairwise_lt_range.filter _

end LevelDb.Lib
