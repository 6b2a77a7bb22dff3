/-
This file develops insertions and merges by a comparison that may fail. As long as all elements
belong to a set on which the comparison succeeds, the operations succeed and give what they give for
the total comparison it agrees with there.
-/

import LevelDb.Lib.OrderedSet

namespace LevelDb.Lib

variable {γ : Type} (less? : γ → γ → Option Bool)

/-- Insert an element into a sorted list without duplicates. -/
def setInsert? (element : γ) : List γ → Option (List γ)
  | [] => some [element]
  | head :: rest => do
    if ← less? element head then return element :: head :: rest
    if ← less? head element then return head :: (← setInsert? element rest)
    return head :: rest

/-- Divide a sorted list behind the members that an element does not come before. -/
def upperBound? (element : γ) : List γ → Option (List γ × List γ)
  | [] => some ([], [])
  | head :: rest => do
    if ← less? element head then return ([], head :: rest)
    let (front, back) ← upperBound? element rest
    return (head :: front, back)

/-- Merge added elements into a sorted list. -/
def mergeInto? : List γ → List γ → Option (List γ)
  | [], base => some base
  | element :: added, base => do
    let (front, back) ← upperBound? less? element base
    return front ++ element :: (← mergeInto? added back)

variable {less?} {less : γ → γ → Bool} {inside : γ → Prop}
  (agrees : ∀ first second, inside first → inside second →
    less? first second = some (less first second))
include agrees

theorem setInsert?_eq {element : γ} {elements : List γ} (isInside : inside element)
    (allInside : ∀ other ∈ elements, inside other) :
    setInsert? less? element elements = some (setInsert less element elements) := by
  induction elements with
  | nil => rfl
  | cons head rest inductionHypothesis =>
    have headInside := allInside head List.mem_cons_self
    have restInside := fun other member => allInside other (List.mem_cons_of_mem _ member)
    rw [setInsert?, setInsert, agrees _ _ isInside headInside, agrees _ _ headInside isInside,
      inductionHypothesis restInside]
    cases less element head with
    | true => rfl
    | false => cases less head element <;> rfl

theorem upperBound?_eq {element : γ} {elements : List γ} (isInside : inside element)
    (allInside : ∀ other ∈ elements, inside other) :
    upperBound? less? element elements =
      some (elements.takeWhile (fun other => !less element other),
        elements.dropWhile fun other => !less element other) := by
  induction elements with
  | nil => rfl
  | cons head rest inductionHypothesis =>
    have restInside := fun other member => allInside other (List.mem_cons_of_mem _ member)
    rw [upperBound?, agrees _ _ isInside (allInside head List.mem_cons_self),
      inductionHypothesis restInside, List.takeWhile_cons, List.dropWhile_cons]
    cases less element head <;> rfl

theorem mergeInto?_eq {added base : List γ} (addedInside : ∀ element ∈ added, inside element)
    (baseInside : ∀ element ∈ base, inside element) :
    mergeInto? less? added base = some (mergeInto less added base) := by
  induction added generalizing base with
  | nil => rfl
  | cons element added inductionHypothesis =>
    have backInside := fun other member =>
      baseInside other ((List.dropWhile_sublist fun other => !less element other).subset member)
    rw [mergeInto?, mergeInto, upperBound?_eq agrees (addedInside element List.mem_cons_self) baseInside]
    dsimp only [Option.bind_eq_bind, Option.bind_some]
    rw [inductionHypothesis (fun other member => addedInside other (List.mem_cons_of_mem _ member))
      backInside]
    rfl

end LevelDb.Lib
