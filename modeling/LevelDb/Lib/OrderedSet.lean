/-
This file develops the list operations behind the ordered sets of the C++ standard library and
behind merging iterators: insertion into a list kept sorted by a comparison, the merge of such
a list into a sorted base list in one pass over both, and the merge of two sorted lists.
-/

import Mathlib.Data.List.TakeWhile
import Mathlib.Tactic

namespace LevelDb.Lib

variable {γ : Type} (less : γ → γ → Bool)

/-- `std::set::insert`: an element equivalent to one already present is not inserted. -/
def setInsert (element : γ) : List γ → List γ
  | [] => [element]
  | head :: rest =>
    if less element head then element :: head :: rest
    else if less head element then head :: setInsert element rest
    else head :: rest

theorem mem_of_mem_setInsert {element other : γ} {elements : List γ}
    (member : other ∈ setInsert less element elements) : other = element ∨ other ∈ elements := by
  induction elements with
  | nil => exact Or.inl (List.mem_singleton.mp member)
  | cons head rest inductionHypothesis =>
    rw [setInsert] at member
    split at member
    · exact List.mem_cons.mp member
    · split at member
      · rcases List.mem_cons.mp member with rfl | tail
        · exact Or.inr List.mem_cons_self
        · rcases inductionHypothesis tail with same | inRest
          · exact Or.inl same
          · exact Or.inr (List.mem_cons_of_mem _ inRest)
      · exact Or.inr member

/-- An element comparable with everything present is inserted. -/
theorem mem_setInsert_self {element : γ} {elements : List γ}
    (comparable : ∀ other ∈ elements, less element other = true ∨ less other element = true) :
    element ∈ setInsert less element elements := by
  induction elements with
  | nil => exact List.mem_singleton.mpr rfl
  | cons head rest inductionHypothesis =>
    rw [setInsert]
    split
    · exact List.mem_cons_self
    · rename_i notLess
      split
      · exact List.mem_cons_of_mem _ (inductionHypothesis fun other member =>
          comparable other (List.mem_cons_of_mem _ member))
      · rename_i notGreater
        rcases comparable head List.mem_cons_self with less | greater
        · exact absurd less notLess
        · exact absurd greater notGreater

/-- Insertion keeps a list sorted by any transitive relation the comparison decides. -/
theorem setInsert_pairwise {order : γ → γ → Prop} (trans : ∀ x y z, order x y → order y z → order x z)
    (sound : ∀ x y, less x y = true → order x y) {element : γ} {elements : List γ}
    (sorted : elements.Pairwise order) : (setInsert less element elements).Pairwise order := by
  induction elements with
  | nil => exact List.pairwise_singleton _ _
  | cons head rest inductionHypothesis =>
    obtain ⟨headRest, restSorted⟩ := List.pairwise_cons.mp sorted
    rw [setInsert]
    split
    · rename_i before
      refine List.pairwise_cons.mpr ⟨fun other member => ?_, sorted⟩
      rcases List.mem_cons.mp member with rfl | tail
      · exact sound _ _ before
      · exact trans _ _ _ (sound _ _ before) (headRest other tail)
    · split
      · rename_i after
        refine List.pairwise_cons.mpr ⟨fun other member => ?_, inductionHypothesis restSorted⟩
        rcases mem_of_mem_setInsert less member with rfl | tail
        · exact sound _ _ after
        · exact headRest other tail
      · exact sorted

/-- An insertion adds one element or leaves the list as it is. -/
theorem setInsert_perm (element : γ) (elements : List γ) :
    (setInsert less element elements).Perm (element :: elements) ∨
      setInsert less element elements = elements := by
  induction elements with
  | nil => exact Or.inl (List.Perm.refl _)
  | cons head rest inductionHypothesis =>
    rw [setInsert]
    split
    · exact Or.inl (List.Perm.refl _)
    · split
      · rcases inductionHypothesis with perm | same
        · exact Or.inl ((perm.cons head).trans (List.Perm.swap element head rest))
        · exact Or.inr (by rw [same])
      · exact Or.inr rfl

/-- Insertion commutes with a map that keeps the comparison. -/
theorem setInsert_map {δ : Type} {less' : δ → δ → Bool} {change : γ → δ}
    (same : ∀ x y, less' (change x) (change y) = less x y) (element : γ) (elements : List γ) :
    setInsert less' (change element) (elements.map change) =
      (setInsert less element elements).map change := by
  induction elements with
  | nil => rfl
  | cons head rest inductionHypothesis =>
    rw [List.map_cons, setInsert, setInsert, same, same, inductionHypothesis]
    split
    · rfl
    · split
      · rfl
      · rfl

/-! ### Merging into a sorted base -/

/-- For each added element in turn, emit the base elements that do not come after it, then the
element itself; finally emit the remaining base elements. -/
def mergeInto : List γ → List γ → List γ
  | [], base => base
  | element :: added, base =>
    base.takeWhile (fun other => !less element other) ++
      element :: mergeInto added (base.dropWhile fun other => !less element other)

theorem mergeInto_perm (added base : List γ) :
    (mergeInto less added base).Perm (base ++ added) := by
  induction added generalizing base with
  | nil => simp [mergeInto]
  | cons element added inductionHypothesis =>
    rw [mergeInto]
    set front := base.takeWhile fun other => !less element other with frontEq
    set back := base.dropWhile fun other => !less element other with backEq
    have split : front ++ back = base := List.takeWhile_append_dropWhile
    calc (front ++ element :: mergeInto less added back).Perm
          (front ++ element :: (back ++ added)) :=
            List.Perm.append_left front ((inductionHypothesis back).cons element)
      _ = ((front ++ element :: back) ++ added) := by simp
      _ |>.Perm ((element :: (front ++ back)) ++ added) :=
            List.Perm.append_right added List.perm_middle
      _ = element :: (base ++ added) := by rw [split]; rfl
      _ |>.Perm (base ++ element :: added) := List.perm_middle.symm

/-- Merging commutes with a map that keeps the comparison. -/
theorem mergeInto_map {δ : Type} {less' : δ → δ → Bool} {change : γ → δ}
    (same : ∀ x y, less' (change x) (change y) = less x y) (added base : List γ) :
    mergeInto less' (added.map change) (base.map change) = (mergeInto less added base).map change := by
  induction added generalizing base with
  | nil => rfl
  | cons element added inductionHypothesis =>
    have compare : ((fun other => !less' (change element) other) ∘ change) =
        fun other => !less element other := by
      funext other
      rw [Function.comp_apply, same]
    rw [List.map_cons, mergeInto, mergeInto, List.takeWhile_map, List.dropWhile_map, compare,
      inductionHypothesis, List.map_append, List.map_cons]

/-- Merging two lists sorted by a transitive order gives a sorted list, when the comparison
decides the order one way and its failure decides it the other way. -/
theorem mergeInto_pairwise {order : γ → γ → Prop}
    (trans : ∀ x y z, order x y → order y z → order x z)
    (sound : ∀ x y, less x y = true → order x y)
    (complete : ∀ x y, less x y = false → order y x) {added base : List γ}
    (addedSorted : added.Pairwise order) (baseSorted : base.Pairwise order) :
    (mergeInto less added base).Pairwise order := by
  induction added generalizing base with
  | nil => exact baseSorted
  | cons element added inductionHypothesis =>
    obtain ⟨elementFirst, restSorted⟩ := List.pairwise_cons.mp addedSorted
    rw [mergeInto]
    have frontBefore : ∀ other ∈ base.takeWhile (fun other => !less element other),
        order other element := by
      intro other member
      exact complete _ _ (by simpa using List.mem_takeWhile_imp member)
    have backSorted : (base.dropWhile fun other => !less element other).Pairwise order :=
      baseSorted.sublist (List.dropWhile_sublist _)
    have backAfter : ∀ other ∈ base.dropWhile (fun other => !less element other),
        order element other := by
      intro other member
      cases back : base.dropWhile (fun other => !less element other) with
      | nil => rw [back] at member; cases member
      | cons head rest =>
        have headAfter : order element head := by
          have stopped := List.head_dropWhile_not (fun other => !less element other)
            (by rw [back]; exact List.cons_ne_nil _ _ : base.dropWhile _ ≠ [])
          simp only [back, List.head_cons, Bool.not_eq_false'] at stopped
          exact sound _ _ stopped
        rw [back] at member backSorted
        rcases List.mem_cons.mp member with rfl | tail
        · exact headAfter
        · exact trans _ _ _ headAfter ((List.pairwise_cons.mp backSorted).1 other tail)
    refine List.pairwise_append.mpr ⟨baseSorted.sublist (List.takeWhile_sublist _), ?_, ?_⟩
    · refine List.pairwise_cons.mpr ⟨fun other member => ?_, inductionHypothesis restSorted backSorted⟩
      rcases List.mem_append.mp ((mergeInto_perm less added _).mem_iff.mp member) with inBack | inAdded
      · exact backAfter other inBack
      · exact elementFirst other inAdded
    · intro front frontMember other member
      rcases List.mem_cons.mp member with rfl | tail
      · exact frontBefore front frontMember
      · rcases List.mem_append.mp ((mergeInto_perm less added _).mem_iff.mp tail) with inBack | inAdded
        · exact trans _ _ _ (frontBefore front frontMember) (backAfter other inBack)
        · exact trans _ _ _ (frontBefore front frontMember) (elementFirst other inAdded)

/-! ### Merging two lists -/

/-- The two-way merge, with a fuel that makes it structurally recursive. -/
def mergeLoop : Nat → List γ → List γ → List γ
  | 0, first, second => first ++ second
  | _ + 1, [], second => second
  | _ + 1, first, [] => first
  | fuel + 1, item :: first, item' :: second =>
    if less item item' then item :: mergeLoop fuel first (item' :: second)
    else item' :: mergeLoop fuel (item :: first) second

/-- Merge two sorted lists; on a tie the item of the first list comes first. -/
def mergeTwo (first second : List γ) : List γ :=
  mergeLoop less (first.length + second.length) first second

theorem mergeLoop_eq (fuel : Nat) (first second : List γ)
    (enough : first.length + second.length ≤ fuel) :
    mergeLoop less fuel first second = first.merge second less := by
  induction fuel generalizing first second with
  | zero =>
    have empty : first = [] := List.length_eq_zero_iff.mp (by omega)
    rw [empty, mergeLoop, List.nil_append, List.nil_merge]
  | succ fuel inductionHypothesis =>
    cases first with
    | nil => rw [mergeLoop, List.nil_merge]
    | cons item first =>
      cases second with
      | nil =>
        rw [mergeLoop, List.merge_right]
        simp
      | cons item' second =>
        rw [mergeLoop, List.cons_merge_cons]
        simp only [List.length_cons] at enough
        rw [inductionHypothesis first (item' :: second) (by simp only [List.length_cons]; omega),
          inductionHypothesis (item :: first) second (by simp only [List.length_cons]; omega)]

theorem mergeTwo_eq (first second : List γ) :
    mergeTwo less first second = first.merge second less :=
  mergeLoop_eq less _ first second le_rfl

end LevelDb.Lib
