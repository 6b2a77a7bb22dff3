/-
This file develops reference counting: objects on a heap that carry the number of references to
them, and the balance between these counts and the references the rest of the state holds. Taking
and dropping references keep the balance, and an object whose last reference is dropped is freed.
-/

import LevelDb.Lib.Shelf
import Mathlib.Algebra.BigOperators.Group.Finset.Basic
import Mathlib.Tactic

namespace LevelDb.Lib

/-- An object with its reference count. -/
structure Counted (γ : Type) where
  refs : Int
  value : γ

/-- The objects that exist, by their addresses. -/
abbrev Heap (γ : Type) := Shelf (Counted γ)

namespace Heap

variable {γ : Type}

def refs (heap : Heap γ) (address : Nat) : Int := (heap.file address).refs

def value (heap : Heap γ) (address : Nat) : γ := (heap.file address).value

/-- `refs++`. -/
def ref (heap : Heap γ) (address : Nat) : Heap γ :=
  heap.put address ⟨heap.refs address + 1, heap.value address⟩

/-- `refs--`. -/
def unref (heap : Heap γ) (address : Nat) : Heap γ :=
  heap.put address ⟨heap.refs address - 1, heap.value address⟩

/-- `refs--`, and `delete` when nothing is left. -/
def release (heap : Heap γ) (address : Nat) : Heap γ :=
  if (heap.unref address).refs address ≤ 0 then (heap.unref address).remove address
  else heap.unref address

/-- Every count is the number of references to its object, and what is referenced exists. -/
structure Balanced (heap : Heap γ) (references : Nat → Nat) : Prop where
  refs_eq : ∀ address ∈ heap.numbers, heap.refs address = references address
  mem_of_pos : ∀ address, 0 < references address → address ∈ heap.numbers

/-- Every object that exists is referenced. -/
def Used (heap : Heap γ) (references : Nat → Nat) : Prop :=
  ∀ address ∈ heap.numbers, 0 < references address

variable {heap : Heap γ} {references references' : Nat → Nat} {address : Nat}

@[simp] theorem ref_value (heap : Heap γ) (address other : Nat) :
    (heap.ref address).value other = heap.value other := by
  by_cases same : other = address
  · rw [same, value, ref, Shelf.put_file_self]
  · rw [value, ref, Shelf.put_file_of_ne _ same, value]

@[simp] theorem unref_value (heap : Heap γ) (address other : Nat) :
    (heap.unref address).value other = heap.value other := by
  by_cases same : other = address
  · rw [same, value, unref, Shelf.put_file_self]
  · rw [value, unref, Shelf.put_file_of_ne _ same, value]

@[simp] theorem release_value (heap : Heap γ) (address other : Nat) :
    (heap.release address).value other = heap.value other := by
  rw [release]
  split
  · exact unref_value heap address other
  · exact unref_value heap address other

theorem count_cons (first other : Nat) (rest : List Nat) :
    (first :: rest).count other = rest.count other + if other = first then 1 else 0 := by
  simp only [List.count_cons, beq_iff_eq, @eq_comm _ first other]

namespace Balanced

/-- References that only changed their description. -/
theorem congr (balanced : heap.Balanced references)
    (same : ∀ other, references' other = references other) : heap.Balanced references' :=
  (funext same : references' = references) ▸ balanced

/-- Creating an object, or changing a count along with the references to its object. -/
theorem put (balanced : heap.Balanced references) (value : γ) {count : Int}
    (new : (references' address : Int) = count)
    (others : ∀ other, other ≠ address → references' other = references other) :
    Heap.Balanced (heap.put address ⟨count, value⟩) references' := by
  constructor
  · intro other otherMember
    by_cases same : other = address
    · rw [same, refs, Shelf.put_file_self, new]
    · rw [refs, Shelf.put_file_of_ne _ same, others other same]
      exact balanced.refs_eq other ((Shelf.mem_put.mp otherMember).resolve_left same)
  · intro other positive
    rw [Shelf.mem_put]
    by_cases same : other = address
    · exact Or.inl same
    · exact Or.inr (balanced.mem_of_pos other (others other same ▸ positive))

theorem ref (balanced : heap.Balanced references) (member : address ∈ heap.numbers)
    (taken : ∀ other, references' other = references other + if other = address then 1 else 0) :
    (heap.ref address).Balanced references' := by
  refine balanced.put _ ?_ fun other different => ?_
  · rw [taken, if_pos rfl, balanced.refs_eq address member]
    rfl
  · rw [taken, if_neg different, Nat.add_zero]

theorem unref (balanced : heap.Balanced references) (member : address ∈ heap.numbers)
    (dropped : ∀ other, references other = references' other + if other = address then 1 else 0) :
    (heap.unref address).Balanced references' := by
  refine balanced.put _ ?_ fun other different => ?_
  · rw [balanced.refs_eq address member, dropped, if_pos rfl]
    omega
  · rw [dropped, if_neg different, Nat.add_zero]

/-- An object without references can be removed. -/
theorem remove (balanced : heap.Balanced references) (unused : references address = 0) :
    Heap.Balanced (Shelf.remove heap address) references := by
  constructor
  · intro other member
    exact balanced.refs_eq other (Shelf.mem_remove.mp member).2
  · intro other positive
    refine Shelf.mem_remove.mpr ⟨fun same => ?_, balanced.mem_of_pos other positive⟩
    rw [same, unused] at positive
    exact lt_irrefl 0 positive

theorem release (balanced : heap.Balanced references)
    (dropped : ∀ other, references other = references' other + if other = address then 1 else 0) :
    (heap.release address).Balanced references' := by
  have member : address ∈ heap.numbers :=
    balanced.mem_of_pos address (by rw [dropped address, if_pos rfl]; omega)
  have lowered := balanced.unref member dropped
  rw [Heap.release]
  split
  · rename_i isFree
    rw [lowered.refs_eq address (Shelf.mem_put.mpr (Or.inl rfl))] at isFree
    exact lowered.remove (by omega)
  · exact lowered

theorem releaseAll {addresses : List Nat} (balanced : heap.Balanced references)
    (dropped : ∀ other, references other = references' other + addresses.count other) :
    (addresses.foldl Heap.release heap).Balanced references' := by
  induction addresses generalizing heap references with
  | nil => exact balanced.congr fun other => (dropped other).symm
  | cons first rest inductionHypothesis =>
    have kept : (heap.release first).Balanced fun other => references' other + rest.count other :=
      balanced.release fun other => by rw [dropped, count_cons, Nat.add_assoc]
    exact inductionHypothesis kept fun other => rfl

end Balanced

namespace Used

/-- Creating an object that is referenced, or changing a count. -/
theorem put (used : heap.Used references) {object : Counted γ} (new : 0 < references' address)
    (others : ∀ other, other ≠ address → references' other = references other) :
    Heap.Used (heap.put address object) references' := by
  intro other member
  by_cases same : other = address
  · rwa [same]
  · rw [others other same]
    exact used other ((Shelf.mem_put.mp member).resolve_left same)

theorem release (used : heap.Used references) (balanced : heap.Balanced references)
    (dropped : ∀ other, references other = references' other + if other = address then 1 else 0) :
    (heap.release address).Used references' := by
  have member : address ∈ heap.numbers :=
    balanced.mem_of_pos address (by rw [dropped address, if_pos rfl]; omega)
  have lowered := balanced.unref member dropped
  have old : ∀ other ∈ (heap.unref address).numbers, other ≠ address → 0 < references' other := by
    intro other otherMember different
    have positive := used other ((Shelf.mem_put.mp otherMember).resolve_left different)
    rwa [dropped, if_neg different, Nat.add_zero] at positive
  rw [Heap.release]
  split
  · intro other otherMember
    obtain ⟨different, otherMember⟩ := Shelf.mem_remove.mp otherMember
    exact old other otherMember different
  · rename_i kept
    intro other otherMember
    by_cases same : other = address
    · rw [lowered.refs_eq address (Shelf.mem_put.mpr (Or.inl rfl))] at kept
      rw [same]
      omega
    · exact old other otherMember same

theorem releaseAll {addresses : List Nat} (used : heap.Used references)
    (balanced : heap.Balanced references)
    (dropped : ∀ other, references other = references' other + addresses.count other) :
    (addresses.foldl Heap.release heap).Used references' := by
  induction addresses generalizing heap references with
  | nil =>
    intro other member
    have positive := used other member
    rwa [dropped] at positive
  | cons first rest inductionHypothesis =>
    have step : ∀ other, references other =
        (references' other + rest.count other) + if other = first then 1 else 0 := by
      intro other
      rw [dropped, count_cons, Nat.add_assoc]
    exact inductionHypothesis (used.release balanced step) (balanced.release step) fun other => rfl

end Used

end Heap

/-! ### References held on a shelf -/

namespace Shelf

variable {γ : Type}

/-- What the files weigh together. -/
def total (weight : γ → Nat) (shelf : Shelf γ) : Nat :=
  ∑ number ∈ shelf.numbers, weight (shelf.file number)

theorem total_put_new {weight : γ → Nat} {shelf : Shelf γ} {number : Nat} {contents : γ}
    (fresh : number ∉ shelf.numbers) :
    (shelf.put number contents).total weight = shelf.total weight + weight contents := by
  have others : ∑ other ∈ shelf.numbers, weight ((shelf.put number contents).file other) =
      shelf.total weight :=
    Finset.sum_congr rfl fun other member => by
      rw [put_file_of_ne _ (ne_of_mem_of_not_mem member fresh)]
  rw [total, show (shelf.put number contents).numbers = insert number shelf.numbers from rfl,
    Finset.sum_insert fresh, put_file_self, others, Nat.add_comm]

theorem total_remove {weight : γ → Nat} {shelf : Shelf γ} {number : Nat}
    (member : number ∈ shelf.numbers) :
    (shelf.remove number).total weight + weight (shelf.file number) = shelf.total weight :=
  Finset.sum_erase_add _ (fun other => weight (shelf.file other)) member

theorem total_put {weight : γ → Nat} {shelf : Shelf γ} {number : Nat} {contents : γ}
    (member : number ∈ shelf.numbers) :
    (shelf.put number contents).total weight + weight (shelf.file number) =
      shelf.total weight + weight contents := by
  have replaced : shelf.put number contents = (shelf.remove number).put number contents := by
    simp [put, remove, Finset.insert_erase member, Finset.insert_eq_of_mem member]
  rw [replaced, total_put_new (by simp [remove]), ← total_remove member]
  omega

/-- An object that only its count changes for weighs the same. -/
theorem total_put_refs {weight : γ → Nat} {heap : Heap γ} {address : Nat}
    (member : address ∈ heap.numbers) (count : Int) :
    (heap.put address ⟨count, heap.value address⟩).total (fun object => weight object.value) =
      heap.total fun object => weight object.value := by
  have weights := @total_put _ (fun object : Counted γ => weight object.value) heap address
    ⟨count, heap.value address⟩ member
  exact Nat.add_right_cancel weights

theorem weight_le_total {weight : γ → Nat} {shelf : Shelf γ} {number : Nat}
    (member : number ∈ shelf.numbers) : weight (shelf.file number) ≤ shelf.total weight :=
  Finset.single_le_sum (f := fun other => weight (shelf.file other)) (fun _ _ => Nat.zero_le _)
    member

end Shelf

end LevelDb.Lib
