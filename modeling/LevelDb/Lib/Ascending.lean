/-
This file develops lists whose members stand in the strict order of their keys: a member divides the
others, the first member that meets a condition has the least key of those, and two such lists with
the same members are equal.
-/

import Mathlib.Data.List.Pairwise
import Mathlib.Tactic

namespace LevelDb.Lib

variable {ι κ : Type} [LinearOrder κ] {key : ι → κ} {members : List ι}

/-- In a sorted list the first item that meets a condition is the least one. -/
theorem find?_eq_some_of_least {items : List ι} {before : ι → ι → Prop} {condition : ι → Bool}
    {item : ι} (sorted : items.Pairwise before) (member : item ∈ items)
    (meets : condition item = true)
    (least : ∀ other ∈ items, condition other = true → ¬ before other item) :
    items.find? condition = some item := by
  induction items with
  | nil => cases member
  | cons first rest inductionHypothesis =>
    obtain same | inRest := List.mem_cons.mp member
    · rw [← same, List.find?_cons_of_pos meets]
    · have skipped : ¬ condition first = true := fun accepted =>
        least first List.mem_cons_self accepted ((List.pairwise_cons.mp sorted).1 item inRest)
      rw [List.find?_cons_of_neg skipped]
      exact inductionHypothesis (List.pairwise_cons.mp sorted).2 inRest
        fun other otherIn => least other (List.mem_cons_of_mem _ otherIn)

variable (key) in
/-- The members stand in the strict order of their keys. -/
abbrev Ascending (members : List ι) : Prop :=
  members.Pairwise fun first second => key first < key second

theorem Ascending.nodup (ascending : Ascending key members) : members.Nodup :=
  ascending.imp fun less same => less.ne (congrArg key same)

/-- A member divides the others into those with smaller and those with greater keys. -/
theorem Ascending.cut (ascending : Ascending key members) {node : ι} (member : node ∈ members) :
    ∃ before after, members = before ++ node :: after ∧ (∀ other ∈ before, key other < key node) ∧
      ∀ other ∈ after, key node < key other := by
  obtain ⟨before, after, rfl⟩ := List.append_of_mem member
  obtain ⟨-, behind, across⟩ := List.pairwise_append.mp ascending
  exact ⟨before, after, rfl, fun other otherIn => across other otherIn node List.mem_cons_self,
    (List.pairwise_cons.mp behind).1⟩

/-- Ascending members that are all members of an ascending list stand in it in the same order. -/
theorem Ascending.sublist {others : List ι} (ascending : Ascending key members)
    (ascending' : Ascending key others) (subset : members ⊆ others) : members.Sublist others := by
  induction others generalizing members with
  | nil => rw [List.subset_nil.mp subset]
  | cons first rest inductionHypothesis =>
    have smallest := (List.pairwise_cons.mp ascending').1
    have inRest : ∀ {node}, node ∈ first :: rest → node ≠ first → node ∈ rest :=
      fun member distinct => (List.mem_cons.mp member).resolve_left distinct
    cases members with
    | nil => exact List.nil_sublist _
    | cons node behind =>
      obtain ⟨greater, ascendingBehind⟩ := List.pairwise_cons.mp ascending
      obtain rfl | distinct := eq_or_ne node first
      · refine (inductionHypothesis ascendingBehind (List.pairwise_cons.mp ascending').2
          fun other member => ?_).cons_cons node
        exact inRest (subset (List.mem_cons_of_mem _ member))
          fun same => (greater other member).ne (congrArg key same.symm)
      · refine (inductionHypothesis ascending (List.pairwise_cons.mp ascending').2
          fun other member => inRest (subset member) ?_).cons first
        rintro rfl
        have nodeIn := smallest node (inRest (subset List.mem_cons_self) distinct)
        obtain same | inBehind := List.mem_cons.mp member
        · exact distinct same.symm
        · exact lt_asymm nodeIn (greater other inBehind)

/-- The first item of a sorted list that meets a condition comes before the others that do. -/
theorem eq_or_before_of_find? {items : List ι} {before : ι → ι → Prop} {condition : ι → Bool}
    {first other : ι} (sorted : items.Pairwise before) (found : items.find? condition = some first)
    (member : other ∈ items) (meets : condition other = true) : other = first ∨ before first other := by
  obtain ⟨-, earlier, later, rfl, skipped⟩ := List.find?_eq_some_iff_append.mp found
  obtain inEarlier | inLater := List.mem_append.mp member
  · have refused := skipped other inEarlier
    rw [meets] at refused
    cases refused
  · obtain same | inLater := List.mem_cons.mp inLater
    · exact .inl same
    · exact .inr ((List.pairwise_cons.mp (List.pairwise_append.mp sorted).2.1).1 other inLater)

/-- In an ascending list the first member that meets a condition has the least key of those. -/
theorem Ascending.le_of_find? (ascending : Ascending key members) {condition : ι → Bool}
    {first other : ι} (found : members.find? condition = some first) (member : other ∈ members)
    (meets : condition other = true) : key first ≤ key other := by
  obtain rfl | less := eq_or_before_of_find? ascending found member meets
  · exact le_rfl
  · exact less.le

end LevelDb.Lib
