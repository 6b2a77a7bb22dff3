/-
This file models `MergingIterator` (`table/merger`) over children that are cursors, and proves that
it is a cursor over the sorted merge of their lists. Going forward, every other child stands on its
first entry after the current key; going back, on its last entry before it. A change of direction
moves the children from one to the other.
-/

import LevelDb.Lib.Ascending
import LevelDb.Lib.Cursor
import LevelDb.Lib.Run
import Mathlib.Data.List.Sort

namespace LevelDb

open Lib

variable {σ κ ν : Type} [LinearOrder κ]

inductive MergingIterator.Direction
  | kForward
  | kReverse
  deriving DecidableEq, Repr

/-- The state of a `MergingIterator` over `n` children. `current` is the index of the child that
`current_` points to. -/
structure MergingIterator (σ : Type) where
  n : Nat
  children : Nat → σ
  current : Option Nat
  direction : MergingIterator.Direction

namespace MergingIterator

/-- The constructor. -/
def new (n : Nat) (children : Nat → σ) : MergingIterator σ := ⟨n, children, none, .kForward⟩

variable (iterator : Iterator σ κ ν)

/-- The loop over the children that keeps the best of the valid ones, the first of equals. -/
def findBest (better : κ → κ → Prop) [DecidableRel better] (children : Nat → σ)
    (indices : List Nat) : Option (Nat × κ) :=
  indices.foldl (fun best i =>
    match iterator.current (children i) with
    | none => best
    | some binding =>
      match best with
      | none => some (i, binding.1)
      | some found => if better binding.1 found.2 then some (i, binding.1) else some found) none

/-- `FindSmallest`. -/
def findSmallest (merger : MergingIterator σ) : MergingIterator σ :=
  { merger with
    current := (findBest iterator (· < ·) merger.children
      (List.range merger.n)).map Prod.fst }

/-- `FindLargest`, which goes through the children from the last to the first. -/
def findLargest (merger : MergingIterator σ) : MergingIterator σ :=
  { merger with
    current := (findBest iterator (· > ·) merger.children
      (List.range merger.n).reverse).map Prod.fst }

/-- The entry the iterator stands on. -/
def entry (merger : MergingIterator σ) : Option (κ × ν) :=
  merger.current.bind fun i => iterator.current (merger.children i)

/-- Seek a child behind the key when the direction turns to forward. -/
def repositionForward (key : κ) (child : σ) : σ :=
  let sought := iterator.call child (.seek key)
  if (iterator.current sought).any fun binding => key = binding.1 then iterator.call sought .next
  else sought

/-- Seek a child before the key when the direction turns to reverse. -/
def repositionReverse (key : κ) (child : σ) : σ :=
  let sought := iterator.call child (.seek key)
  if (iterator.current sought).isSome then iterator.call sought .prev
  else iterator.call sought .seekToLast

/-- `Next` and `Prev` reposition the children but the current one when the direction changes. -/
def turn (merger : MergingIterator σ) (direction : Direction) (reposition : σ → σ) (current : Nat) :
    MergingIterator σ :=
  if merger.direction = direction then merger
  else
    { merger with
      children := fun i => if i = current then merger.children i else reposition (merger.children i)
      direction := direction }

/-- The call goes to every child. -/
def callAll (merger : MergingIterator σ) (call : CursorCall κ) : MergingIterator σ :=
  { merger with children := fun i => iterator.call (merger.children i) call }

/-- The call goes to one child. -/
def callOne (merger : MergingIterator σ) (i : Nat) (call : CursorCall κ) : MergingIterator σ :=
  { merger with
    children := Function.update merger.children i (iterator.call (merger.children i) call) }

/-- One call. `Next` and `Prev` assert that the iterator is valid. -/
def step (merger : MergingIterator σ) : CursorCall κ → Option (MergingIterator σ)
  | .seek target =>
    some { (merger.callAll iterator (.seek target)).findSmallest iterator with
      direction := .kForward }
  | .seekToFirst =>
    some { (merger.callAll iterator .seekToFirst).findSmallest iterator with
      direction := .kForward }
  | .seekToLast =>
    some { (merger.callAll iterator .seekToLast).findLargest iterator with
      direction := .kReverse }
  | .next =>
    merger.current.bind fun current =>
      (merger.entry iterator).map fun entry =>
        ((merger.turn .kForward (repositionForward iterator entry.1) current).callOne iterator current
          .next).findSmallest iterator
  | .prev =>
    merger.current.bind fun current =>
      (merger.entry iterator).map fun entry =>
        ((merger.turn .kReverse (repositionReverse iterator entry.1) current).callOne iterator current
          .prev).findLargest iterator

/-! ### The best child -/

section Best

variable {iterator : Iterator σ κ ν} {better : κ → κ → Prop} [DecidableRel better]
  {children : Nat → σ} {indices : List Nat}

omit [LinearOrder κ] in
/-- The loop finds no child exactly when none is valid, and otherwise one that no other is better
than. -/
theorem findBest_spec (irrefl : ∀ key, ¬ better key key)
    (trans : ∀ first second third, better first second → better second third → better first third) :
    (findBest iterator better children indices = none ∧
      ∀ i ∈ indices, iterator.current (children i) = none) ∨
    ∃ i ∈ indices, ∃ binding, findBest iterator better children indices = some (i, binding.1) ∧
      iterator.current (children i) = some binding ∧
        ∀ j ∈ indices, ∀ other ∈ iterator.current (children j), ¬ better other.1 binding.1 := by
  induction indices using List.reverseRecOn with
  | nil => exact .inl ⟨rfl, fun i member => absurd member List.not_mem_nil⟩
  | append_singleton seen i inductionHypothesis =>
    have unfolds : findBest iterator better children (seen ++ [i]) =
        match iterator.current (children i) with
        | none => findBest iterator better children seen
        | some binding =>
          match findBest iterator better children seen with
          | none => some (i, binding.1)
          | some found => if better binding.1 found.2 then some (i, binding.1) else some found := by
      rw [findBest, List.foldl_append]
      rfl
    have inBoth : ∀ {property : Nat → Prop}, (∀ j ∈ seen, property j) → property i →
        ∀ j ∈ seen ++ [i], property j := by
      intro property ofSeen ofLast j member
      obtain inSeen | isLast := List.mem_append.mp member
      · exact ofSeen j inSeen
      · exact List.mem_singleton.mp isLast ▸ ofLast
    have lastIn : i ∈ seen ++ [i] := List.mem_append_right _ (List.mem_singleton.mpr rfl)
    rw [unfolds]
    cases current : iterator.current (children i) with
    | none =>
      obtain ⟨isNone, noneValid⟩ | ⟨best, inSeen, binding, isBest, valid, least⟩ := inductionHypothesis
      · exact .inl ⟨isNone, inBoth noneValid current⟩
      · refine .inr ⟨best, List.mem_append_left _ inSeen, binding, isBest, valid, inBoth least ?_⟩
        rw [current]
        exact fun other isNone => absurd isNone (Option.not_mem_none other)
    | some binding =>
      obtain ⟨isNone, noneValid⟩ | ⟨best, inSeen, found, isBest, valid, least⟩ := inductionHypothesis
      · rw [isNone]
        refine .inr ⟨i, lastIn, binding, rfl, current, inBoth (fun j inSeen => ?_) ?_⟩
        · rw [noneValid j inSeen]
          exact fun other isNone => absurd isNone (Option.not_mem_none other)
        · rw [current]
          rintro other ⟨⟩
          exact irrefl _
      · rw [isBest]
        dsimp only
        split
        next isBetter =>
          refine .inr ⟨i, lastIn, binding, rfl, current, inBoth (fun j inSeen other isOther => ?_) ?_⟩
          · exact fun beats => least j inSeen other isOther (trans _ _ _ beats isBetter)
          · rw [current]
            rintro other ⟨⟩
            exact irrefl _
        next notBetter =>
          refine .inr ⟨best, List.mem_append_left _ inSeen, found, rfl, valid, inBoth least ?_⟩
          rw [current]
          rintro other ⟨⟩
          exact notBetter

variable {maps : Nat → List (κ × ν)} {merged : List (κ × ν)} {condition : κ × ν → Bool}

omit [LinearOrder κ] in
/-- When every child stands on its first binding that meets a condition, the best child stands on the
first binding of the merged list that does, and the others on their first one behind it. -/
theorem findBest_merged (irrefl : ∀ key, ¬ better key key)
    (trans : ∀ first second third, better first second → better second third → better first third)
    (total : ∀ first second, better first second ∨ first = second ∨ better second first)
    (sorted : merged.Pairwise fun first second => better first.1 second.1)
    (sortedMaps : ∀ i ∈ indices, (maps i).Pairwise fun first second => better first.1 second.1)
    (members : ∀ binding, binding ∈ merged ↔ ∃ i ∈ indices, binding ∈ maps i)
    (distinct : ∀ i ∈ indices, ∀ j ∈ indices, i ≠ j → ∀ first ∈ maps i, ∀ second ∈ maps j,
      first.1 ≠ second.1)
    (upwards : ∀ first second, better first.1 second.1 → condition first = true →
      condition second = true)
    (stands : ∀ i ∈ indices, iterator.current (children i) = (maps i).find? condition) :
    (findBest iterator better children indices = none ∧ merged.find? condition = none) ∨
    ∃ i ∈ indices, ∃ binding, findBest iterator better children indices = some (i, binding.1) ∧
      iterator.current (children i) = some binding ∧ merged.find? condition = some binding ∧
        ∀ j ∈ indices, j ≠ i → iterator.current (children j) =
          (maps j).find? fun other => decide (better binding.1 other.1) := by
  obtain ⟨isNone, noneValid⟩ | ⟨i, isIndex, binding, isBest, valid, least⟩ :=
    @findBest_spec σ κ ν iterator better _ children indices irrefl trans
  · refine .inl ⟨isNone, List.find?_eq_none.mpr fun other member meets => ?_⟩
    obtain ⟨j, inIndices, inMap⟩ := (members other).mp member
    have found := (stands j inIndices).symm.trans (noneValid j inIndices)
    exact List.find?_eq_none.mp found other inMap meets
  · have found := (stands i isIndex).symm.trans valid
    have inMap := List.mem_of_find?_eq_some found
    have meets : condition binding = true := (List.find?_eq_some_iff_append.mp found).1
    have isLeast : ∀ j ∈ indices, ∀ other ∈ maps j, condition other = true →
        ¬ better other.1 binding.1 := by
      intro j inIndices other otherIn otherMeets beats
      obtain ⟨first, isFirst⟩ := Option.isSome_iff_exists.mp
        (List.find?_isSome.mpr ⟨other, otherIn, otherMeets⟩)
      have notBetter := least j inIndices first ((stands j inIndices).trans isFirst)
      obtain rfl | before := eq_or_before_of_find? (sortedMaps j inIndices) isFirst otherIn otherMeets
      · exact notBetter beats
      · exact notBetter (trans _ _ _ before beats)
    refine .inr ⟨i, isIndex, binding, isBest, valid, ?_, fun j inIndices different => ?_⟩
    · refine find?_eq_some_of_least sorted ((members binding).mpr ⟨i, isIndex, inMap⟩) meets
        fun other member otherMeets => ?_
      obtain ⟨j, inIndices, otherIn⟩ := (members other).mp member
      exact isLeast j inIndices other otherIn otherMeets
    · rw [stands j inIndices]
      refine find?_congr_of_mem fun other otherIn => ?_
      rw [Bool.eq_iff_iff, decide_eq_true_iff]
      constructor
      · intro otherMeets
        obtain before | same | after := total binding.1 other.1
        · exact before
        · exact absurd same.symm (distinct j inIndices i isIndex different other otherIn binding inMap)
        · exact absurd after (isLeast j inIndices other otherIn otherMeets)
      · exact fun behind => upwards binding other behind meets

end Best

/-! ### Where the children stand -/

/-- A list is the sorted merge of the lists of the children, whose keys are all different. -/
structure MergeOf (n : Nat) (maps : Nat → List (κ × ν)) (merged : List (κ × ν)) : Prop where
  ascending : Ascending Prod.fst merged
  ascendingMaps : ∀ i < n, Ascending Prod.fst (maps i)
  members : ∀ binding, binding ∈ merged ↔ ∃ i < n, binding ∈ maps i
  distinct : ∀ i < n, ∀ j < n, i ≠ j → ∀ first ∈ maps i, ∀ second ∈ maps j, first.1 ≠ second.1

/-- Where a child that is not the current one stands. -/
def beyond (direction : Direction) (map : List (κ × ν)) (key : κ) : Option (κ × ν) :=
  match direction with
  | .kForward => map.find? fun other => decide (key < other.1)
  | .kReverse => map.reverse.find? fun other => decide (other.1 < key)

/-- The iterator stands on an entry of the merged list, and its children beyond it. -/
structure StandsOn (iterator : Iterator σ κ ν) (isOver : σ → List (κ × ν) → Prop)
    (maps : Nat → List (κ × ν)) (merger : MergingIterator σ) (position : Option (κ × ν)) : Prop where
  children : ∀ i < merger.n, isOver (merger.children i) (maps i)
  invalid : position = none → merger.current = none
  valid : ∀ entry, position = some entry → ∃ i < merger.n, merger.current = some i ∧
    iterator.current (merger.children i) = some entry ∧
      ∀ j < merger.n, j ≠ i →
        iterator.current (merger.children j) = beyond merger.direction (maps j) entry.1

variable {iterator : Iterator σ κ ν} {isOver : σ → List (κ × ν) → Prop}
  {maps : Nat → List (κ × ν)} {merged : List (κ × ν)} {merger : MergingIterator σ}

theorem MergeOf.findSmallest (merger : MergingIterator σ) (isMerge : MergeOf merger.n maps merged)
    (children : ∀ i < merger.n, isOver (merger.children i) (maps i)) {condition : κ × ν → Bool}
    (upwards : ∀ first second, first.1 < second.1 → condition first = true → condition second = true)
    (stands : ∀ i < merger.n, iterator.current (merger.children i) = (maps i).find? condition)
    (direction : merger.direction = .kForward) :
    StandsOn iterator isOver maps (merger.findSmallest iterator) (merged.find? condition) := by
  obtain ⟨isNone, noEntry⟩ | ⟨i, inRange, entry, isBest, current, isFirst, others⟩ :=
    @findBest_merged σ κ ν iterator (· < ·) _ merger.children (List.range merger.n) maps merged
      condition lt_irrefl (fun _ _ _ => lt_trans) lt_trichotomy isMerge.ascending
      (fun i member => isMerge.ascendingMaps i (List.mem_range.mp member))
      (fun binding => by simpa using isMerge.members binding)
      (fun i member j member' => isMerge.distinct i (List.mem_range.mp member) j
        (List.mem_range.mp member'))
      upwards fun i member => stands i (List.mem_range.mp member)
  · refine ⟨children, fun _ => ?_, fun entry isEntry => ?_⟩
    · rw [MergingIterator.findSmallest, isNone]
      rfl
    · cases noEntry.symm.trans isEntry
  · refine ⟨children, fun isNone => ?_, fun entry' isEntry => ?_⟩
    · cases isFirst.symm.trans isNone
    · obtain rfl := Option.some.inj (isFirst.symm.trans isEntry)
      refine ⟨i, List.mem_range.mp inRange, ?_, current, fun j below different => ?_⟩
      · rw [MergingIterator.findSmallest, isBest]
        rfl
      · rw [show (merger.findSmallest iterator).direction = .kForward from direction]
        exact others j (List.mem_range.mpr below) different

theorem MergeOf.findLargest (merger : MergingIterator σ) (isMerge : MergeOf merger.n maps merged)
    (children : ∀ i < merger.n, isOver (merger.children i) (maps i)) {condition : κ × ν → Bool}
    (downwards : ∀ first second, second.1 < first.1 → condition first = true →
      condition second = true)
    (stands : ∀ i < merger.n, iterator.current (merger.children i) = (maps i).reverse.find? condition)
    (direction : merger.direction = .kReverse) :
    StandsOn iterator isOver maps (merger.findLargest iterator) (merged.reverse.find? condition) := by
  have inReverse : ∀ {i}, i ∈ (List.range merger.n).reverse ↔ i < merger.n := fun {i} =>
    List.mem_reverse.trans List.mem_range
  obtain ⟨isNone, noEntry⟩ | ⟨i, inRange, entry, isBest, current, isFirst, others⟩ :=
    @findBest_merged σ κ ν iterator (· > ·) _ merger.children (List.range merger.n).reverse
      (fun i => (maps i).reverse) merged.reverse condition lt_irrefl
      (fun _ _ _ first second => gt_trans first second)
      (fun first second => (lt_trichotomy second first).imp id fun rest => rest.imp Eq.symm id)
      (List.pairwise_reverse.mpr isMerge.ascending)
      (fun i member => List.pairwise_reverse.mpr (isMerge.ascendingMaps i (inReverse.mp member)))
      (fun binding => by simpa using isMerge.members binding)
      (fun i member j member' different first firstIn second secondIn => isMerge.distinct i
        (inReverse.mp member) j (inReverse.mp member') different first (List.mem_reverse.mp firstIn)
        second (List.mem_reverse.mp secondIn))
      downwards fun i member => stands i (inReverse.mp member)
  · refine ⟨children, fun _ => ?_, fun entry isEntry => ?_⟩
    · rw [MergingIterator.findLargest, isNone]
      rfl
    · cases noEntry.symm.trans isEntry
  · refine ⟨children, fun isNone => ?_, fun entry' isEntry => ?_⟩
    · cases isFirst.symm.trans isNone
    · obtain rfl := Option.some.inj (isFirst.symm.trans isEntry)
      refine ⟨i, inReverse.mp inRange, ?_, current, fun j below different => ?_⟩
      · rw [MergingIterator.findLargest, isBest]
        rfl
      · rw [show (merger.findLargest iterator).direction = .kReverse from direction]
        exact others j (inReverse.mpr below) different

/-! ### Changes of direction -/

section Reposition

variable {map : List (κ × ν)} {child : σ} {key : κ}

/-- A child without the key goes to its first entry after it. -/
theorem repositionForward_spec (isCursor : iterator.IsCursor isOver) (overMap : isOver child map)
    (absent : ∀ binding ∈ map, binding.1 ≠ key) :
    isOver (repositionForward iterator key child) map ∧
      iterator.current (repositionForward iterator key child) = beyond .kForward map key := by
  obtain ⟨overSought, sought⟩ := isCursor.answers child map (.seek key) _ overMap rfl
  have notEqual : ¬ ((iterator.current (iterator.call child (.seek key))).any fun binding =>
      decide (key = binding.1)) = true := by
    rw [sought]
    intro equal
    obtain ⟨binding, found, same⟩ := (Option.any_eq_true _ _).mp equal
    exact absent binding (List.mem_of_find?_eq_some found) (of_decide_eq_true same).symm
  rw [repositionForward]
  rw [if_neg notEqual]
  refine ⟨overSought, sought.trans (find?_congr_of_mem fun other member => ?_)⟩
  rw [decide_eq_decide]
  exact ⟨fun le => lt_of_le_of_ne le (absent other member).symm, le_of_lt⟩

/-- A child goes to its last entry before the key. -/
theorem repositionReverse_spec (isCursor : iterator.IsCursor isOver) (overMap : isOver child map)
    (ascending : Ascending Prod.fst map) :
    isOver (repositionReverse iterator key child) map ∧
      iterator.current (repositionReverse iterator key child) = beyond .kReverse map key := by
  obtain ⟨overSought, sought⟩ := isCursor.answers child map (.seek key) _ overMap rfl
  rw [repositionReverse]
  cases found : map.find? fun binding => decide (key ≤ binding.1) with
  | some first =>
    rw [found] at sought
    rw [sought, if_pos Option.isSome_some]
    obtain ⟨overPrev, prev⟩ := isCursor.answers _ map .prev _ overSought (by rw [sought]; rfl)
    refine ⟨overPrev, prev.trans (find?_congr_of_mem fun other member => ?_)⟩
    rw [decide_eq_decide]
    have atLeast : key ≤ first.1 := of_decide_eq_true (List.find?_eq_some_iff_append.mp found).1
    refine ⟨fun before => ?_, fun before => before.trans_le atLeast⟩
    by_contra notBefore
    have after := ascending.le_of_find? found (List.mem_reverse.mp member)
      (decide_eq_true (not_lt.mp notBefore))
    exact not_lt.mpr after before
  | none =>
    rw [found] at sought
    rw [sought, if_neg (by simp)]
    obtain ⟨overLast, last⟩ := isCursor.answers _ map .seekToLast _ overSought rfl
    refine ⟨overLast, last.trans ?_⟩
    rw [← List.head?_reverse]
    refine (find?_eq_head?_of_forall fun other member => decide_eq_true (not_le.mp fun after => ?_)).symm
    exact List.find?_eq_none.mp found other (List.mem_reverse.mp member) (decide_eq_true after)

end Reposition

/-! ### The calls -/

section Calls

omit [LinearOrder κ] in
theorem find?_true (map : List (κ × ν)) : map.find? (fun _ => true) = map.head? :=
  find?_eq_head?_of_forall fun _ _ => rfl

variable {position : Option (κ × ν)} {entry : κ × ν}

theorem StandsOn.entry_eq (stands : StandsOn iterator isOver maps merger position) :
    merger.entry iterator = position := by
  cases position with
  | none => rw [MergingIterator.entry, stands.invalid rfl, Option.bind_none]
  | some entry =>
    obtain ⟨i, -, isCurrent, current, -⟩ := stands.valid entry rfl
    rw [MergingIterator.entry, isCurrent, Option.bind_some, current]

theorem StandsOn.isSome_current (stands : StandsOn iterator isOver maps merger position) :
    merger.current.isSome = position.isSome := by
  cases position with
  | none => rw [stands.invalid rfl]; rfl
  | some entry =>
    obtain ⟨i, -, isCurrent, -⟩ := stands.valid entry rfl
    rw [isCurrent]
    rfl

/-- A call that goes to every child takes each to where the cursor over its list goes. -/
theorem StandsOn.callAll (isCursor : iterator.IsCursor isOver)
    (stands : StandsOn iterator isOver maps merger position) (call : CursorCall κ)
    {target : List (κ × ν) → Option (κ × ν)}
    (answered : ∀ map current, cursorStep map current call = some (target map)) :
    ∀ i < merger.n, isOver ((merger.callAll iterator call).children i) (maps i) ∧
      iterator.current ((merger.callAll iterator call).children i) = target (maps i) :=
  fun i below => isCursor.answers _ _ call _ (stands.children i below) (answered _ _)

/-- After a possible change of direction the current child has not moved, and the others stand beyond
the current key in the new direction. -/
theorem StandsOn.turn (stands : StandsOn iterator isOver maps merger (some entry))
    {current : Nat} (isCurrent : merger.current = some current) (direction : Direction)
    (reposition : σ → σ)
    (repositions : ∀ i < merger.n, i ≠ current → merger.direction ≠ direction →
      isOver (reposition (merger.children i)) (maps i) ∧
        iterator.current (reposition (merger.children i)) = beyond direction (maps i) entry.1) :
    (merger.turn direction reposition current).n = merger.n ∧
    (merger.turn direction reposition current).direction = direction ∧
    (merger.turn direction reposition current).children current = merger.children current ∧
    ∀ i < merger.n, i ≠ current →
      isOver ((merger.turn direction reposition current).children i) (maps i) ∧
        iterator.current ((merger.turn direction reposition current).children i) =
          beyond direction (maps i) entry.1 := by
  rw [MergingIterator.turn]
  split
  next same =>
    refine ⟨rfl, same, rfl, fun i below different => ⟨stands.children i below, ?_⟩⟩
    obtain ⟨j, -, isCurrent', -, others⟩ := stands.valid entry rfl
    obtain rfl := Option.some.inj (isCurrent.symm.trans isCurrent')
    exact same ▸ others i below different
  next turns =>
    refine ⟨rfl, rfl, if_pos rfl, fun i below different => ?_⟩
    dsimp only
    rw [if_neg different]
    exact repositions i below different turns

/-- When the current child then moves as well, all children stand beyond the current key. -/
theorem stands_update (isCursor : iterator.IsCursor isOver) {n current : Nat} {children : Nat → σ}
    {direction : Direction} (call : CursorCall κ) (overMap : isOver (children current) (maps current))
    (isEntry : iterator.current (children current) = some entry)
    (moves : ∀ map, cursorStep map (some entry) call = some (beyond direction map entry.1))
    (others : ∀ i < n, i ≠ current → isOver (children i) (maps i) ∧
      iterator.current (children i) = beyond direction (maps i) entry.1) :
    ∀ i < n,
      isOver (Function.update children current (iterator.call (children current) call) i) (maps i) ∧
        iterator.current (Function.update children current (iterator.call (children current) call) i) =
          beyond direction (maps i) entry.1 := by
  intro i below
  obtain rfl | different := eq_or_ne i current
  · rw [Function.update_self]
    refine isCursor.answers _ _ call _ overMap ?_
    rw [isEntry]
    exact moves _
  · rw [Function.update_of_ne different]
    exact others i below different

theorem MergeOf.absent (isMerge : MergeOf merger.n maps merged) (isCursor : iterator.IsCursor isOver)
    (stands : StandsOn iterator isOver maps merger position) {current : Nat}
    (inRange : current < merger.n)
    (isEntry : iterator.current (merger.children current) = some entry) :
    ∀ i < merger.n, i ≠ current → ∀ binding ∈ maps i, binding.1 ≠ entry.1 :=
  fun i below different binding member => isMerge.distinct i below current inRange different binding
    member entry (isCursor.mem _ _ (stands.children current inRange) entry isEntry)

/-- One call keeps the iterator on the entry where the cursor over the merged list stands. -/
theorem StandsOn.step (isCursor : iterator.IsCursor isOver)
    (isMerge : MergeOf merger.n maps merged)
    (stands : StandsOn iterator isOver maps merger position) (call : CursorCall κ) :
    Option.Rel (fun merger' position' => merger'.n = merger.n ∧
        StandsOn iterator isOver maps merger' position')
      (merger.step iterator call) (cursorStep merged position call) := by
  cases call with
  | seek target =>
    have sought := stands.callAll isCursor (.seek target) fun _ _ => rfl
    refine .some ⟨rfl, ?_⟩
    exact MergeOf.findSmallest
      { merger.callAll iterator (.seek target) with direction := .kForward } isMerge
      (fun i below => (sought i below).1)
      (fun first second less atLeast => decide_eq_true ((of_decide_eq_true atLeast).trans less.le))
      (fun i below => (sought i below).2) rfl
  | seekToFirst =>
    have sought := stands.callAll isCursor .seekToFirst fun _ _ => rfl
    refine .some ⟨rfl, ?_⟩
    rw [← find?_true]
    exact MergeOf.findSmallest
      { merger.callAll iterator .seekToFirst with direction := .kForward } isMerge
      (fun i below => (sought i below).1) (fun _ _ _ _ => rfl)
      (fun i below => (sought i below).2.trans (find?_true _).symm) rfl
  | seekToLast =>
    have sought := stands.callAll isCursor .seekToLast fun _ _ => rfl
    refine .some ⟨rfl, ?_⟩
    rw [← List.head?_reverse, ← find?_true]
    exact MergeOf.findLargest
      { merger.callAll iterator .seekToLast with direction := .kReverse } isMerge
      (fun i below => (sought i below).1) (fun _ _ _ _ => rfl)
      (fun i below => by
        rw [(sought i below).2, ← List.head?_reverse, find?_true]) rfl
  | next =>
    cases position with
    | none =>
      rw [MergingIterator.step, stands.invalid rfl]
      exact .none
    | some entry =>
      obtain ⟨current, inRange, isCurrent, isEntry, -⟩ := stands.valid entry rfl
      have absent := isMerge.absent isCursor stands inRange isEntry
      obtain ⟨sameN, forward, unmoved, others⟩ := stands.turn isCurrent .kForward
        (repositionForward iterator entry.1) fun i below different _ =>
          repositionForward_spec isCursor (stands.children i below) (absent i below different)
      have moved := stands_update isCursor .next (unmoved.symm ▸ stands.children current inRange)
        (unmoved.symm ▸ isEntry) (fun _ => rfl) others
      rw [MergingIterator.step, isCurrent, stands.entry_eq]
      refine .some ⟨sameN, ?_⟩
      rw [← sameN] at isMerge moved
      exact MergeOf.findSmallest (MergingIterator.callOne iterator _ current .next) isMerge
        (fun i below => (moved i below).1)
        (fun first second less after => decide_eq_true (lt_trans (of_decide_eq_true after) less))
        (fun i below => (moved i below).2) forward
  | prev =>
    cases position with
    | none =>
      rw [MergingIterator.step, stands.invalid rfl]
      exact .none
    | some entry =>
      obtain ⟨current, inRange, isCurrent, isEntry, -⟩ := stands.valid entry rfl
      obtain ⟨sameN, backward, unmoved, others⟩ := stands.turn isCurrent .kReverse
        (repositionReverse iterator entry.1) fun i below _ _ =>
          repositionReverse_spec isCursor (stands.children i below) (isMerge.ascendingMaps i below)
      have moved := stands_update isCursor .prev (unmoved.symm ▸ stands.children current inRange)
        (unmoved.symm ▸ isEntry) (fun _ => rfl) others
      rw [MergingIterator.step, isCurrent, stands.entry_eq]
      refine .some ⟨sameN, ?_⟩
      rw [← sameN] at isMerge moved
      exact MergeOf.findLargest (MergingIterator.callOne iterator _ current .prev) isMerge
        (fun i below => (moved i below).1)
        (fun first second less before => decide_eq_true (lt_trans less (of_decide_eq_true before)))
        (fun i below => (moved i below).2) backward

end Calls

/-! ### Runs -/

/-- The sorted merge of the lists of the children. -/
def sortedMerge (n : Nat) (maps : Nat → List (κ × ν)) : List (κ × ν) :=
  ((List.range n).flatMap maps).insertionSort fun first second => first.1 ≤ second.1

theorem sortedMerge_isMerge {n : Nat} (ascending : ∀ i < n, Ascending Prod.fst (maps i))
    (distinct : ∀ i < n, ∀ j < n, i ≠ j → ∀ first ∈ maps i, ∀ second ∈ maps j,
      first.1 ≠ second.1) : MergeOf n maps (sortedMerge n maps) := by
  have permutes : (sortedMerge n maps).Perm ((List.range n).flatMap maps) :=
    List.perm_insertionSort _ _
  refine ⟨?_, ascending, fun binding => ?_, distinct⟩
  · have sorted : (sortedMerge n maps).Pairwise fun first second => first.1 ≤ second.1 :=
      List.pairwise_insertionSort _ _
    have differ : ((List.range n).flatMap maps).Pairwise fun first second => first.1 ≠ second.1 := by
      refine List.pairwise_flatMap.mpr ⟨fun i member => ?_, ?_⟩
      · exact (ascending i (List.mem_range.mp member)).imp LT.lt.ne
      · refine List.pairwise_lt_range.imp_of_mem fun first second less => ?_
        exact distinct _ (List.mem_range.mp first) _ (List.mem_range.mp second) less.ne
    have symmetric : ∀ {first second : κ × ν}, first.1 ≠ second.1 → second.1 ≠ first.1 := Ne.symm
    exact sorted.imp₂ (fun _ _ => lt_of_le_of_ne) ((permutes.pairwise_iff symmetric).mpr differ)
  · rw [permutes.mem_iff, List.mem_flatMap]
    exact exists_congr fun i => and_congr_left' List.mem_range

/-- Over children that are cursors over sorted lists without a common key, the iterator shows, after
every sequence of calls, what a cursor over the sorted merge of the lists shows. -/
theorem is_cursor_over_sortedMerge (isCursor : iterator.IsCursor isOver) {n : Nat}
    {children : Nat → σ} (overMaps : ∀ i < n, isOver (children i) (maps i))
    (ascending : ∀ i < n, Ascending Prod.fst (maps i))
    (distinct : ∀ i < n, ∀ j < n, i ≠ j → ∀ first ∈ maps i, ∀ second ∈ maps j,
      first.1 ≠ second.1) (calls : List (CursorCall κ)) :
    trace (step iterator) (fun merger => (merger.current.isSome, merger.entry iterator))
        (new n children) calls =
      trace (cursorStep (sortedMerge n maps)) (fun position => (position.isSome, position)) none
        calls := by
  refine @trace_eq _ _ _ _ _ _ _ _ (fun merger position => merger.n = n ∧
    StandsOn iterator isOver maps merger position) (fun merger position related => ?_)
    (fun merger position call related => ?_) _ _ ⟨rfl, overMaps, fun _ => rfl, fun _ isEntry => ?_⟩ calls
  · rw [related.2.isSome_current, related.2.entry_eq]
  · obtain ⟨rfl, stands⟩ := related
    exact stands.step isCursor (sortedMerge_isMerge ascending distinct) call
  · cases isEntry

theorem is_cursor_over_sortedMerge_of_two :
    trace (step listIterator)
        (fun merger => (merger.current.isSome, merger.entry listIterator))
        (new 2 fun i => ([[(1, 'a'), (4, 'd')], [(2, 'b')]].getD i [], none))
        [.seekToFirst, .next, .next, .prev, .prev, .seek 3, .prev] =
      some [(true, some (1, 'a')), (true, some (2, 'b')), (true, some (4, 'd')),
        (true, some (2, 'b')), (true, some (1, 'a')), (true, some (4, 'd')), (true, some (2, 'b'))] :=
  (@is_cursor_over_sortedMerge _ _ _ _ _ _ (fun i => [[(1, 'a'), (4, 'd')], [(2, 'b')]].getD i [])
    listIterator_isCursor _ _
    (fun _ _ => ⟨rfl, fun _ isNone => absurd isNone (Option.not_mem_none _)⟩) (by decide) (by decide)
    _).trans (by decide)

end MergingIterator

end LevelDb
