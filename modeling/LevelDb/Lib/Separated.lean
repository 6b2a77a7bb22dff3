/-
This file develops a sorted map that is cut into blocks by an index: the keys of a block are at most
its separator and greater than the separator before it. A search of the whole map is a search of one
block, and when that finds nothing, of the nearest later block that is not empty.
-/

import LevelDb.Lib.Ascending
import LevelDb.Lib.Cursor

namespace LevelDb.Lib

variable {κ ι ν : Type} [LinearOrder κ]

/-- The blocks of the entries of an index, one after the other. -/
def joined (index : List (κ × ι)) (contents : ι → List (κ × ν)) : List (κ × ν) :=
  index.flatMap fun entry => contents entry.2

/-- The separators of an index ascend, and each block lies between the separator before it and its
own. -/
structure Separated (index : List (κ × ι)) (contents : ι → List (κ × ν)) : Prop where
  ascending : Ascending Prod.fst index
  ascendingBlocks : ∀ entry ∈ index, Ascending Prod.fst (contents entry.2)
  atMost : ∀ entry ∈ index, ∀ binding ∈ contents entry.2, binding.1 ≤ entry.1
  behind : index.IsChain fun previous entry => ∀ binding ∈ contents entry.2, previous.1 < binding.1

variable {index before after : List (κ × ι)} {contents : ι → List (κ × ν)} {entry : κ × ι}
  {condition : κ × ν → Bool}

/-! ### Searches of the index -/

section Index

variable {α : Type} {key : α → κ} {front back : List α} {node : α}

theorem Ascending.find?_gt (ascending : Ascending key (front ++ node :: back)) :
    (front ++ node :: back).find? (fun other => decide (key node < key other)) = back.head? := by
  obtain ⟨-, behind, across⟩ := List.pairwise_append.mp ascending
  have nothing : front.find? (fun other => decide (key node < key other)) = none :=
    List.find?_eq_none.mpr fun other member high =>
      lt_asymm (of_decide_eq_true high) (across other member node List.mem_cons_self)
  have notItself : (node :: back).find? (fun other => decide (key node < key other)) =
      back.find? fun other => decide (key node < key other) := List.find?_cons_of_neg (by simp)
  rw [List.find?_append, nothing, Option.none_or, notItself]
  exact find?_eq_head?_of_forall fun other member =>
    decide_eq_true ((List.pairwise_cons.mp behind).1 other member)

theorem Ascending.find?_lt (ascending : Ascending key (front ++ node :: back)) :
    (front ++ node :: back).reverse.find? (fun other => decide (key other < key node)) =
      front.reverse.head? := by
  have split : (front ++ node :: back).reverse = back.reverse ++ node :: front.reverse := by simp
  have descending : Ascending (fun other => OrderDual.toDual (key other))
      (back.reverse ++ node :: front.reverse) := split ▸ List.pairwise_reverse.mpr ascending
  rw [split]
  exact descending.find?_gt

theorem Ascending.find?_gt_getElem {members : List α} (ascending : Ascending key members)
    {index : Nat} (bound : index < members.length) :
    members.find? (fun other => decide (key members[index] < key other)) = members[index + 1]? := by
  have split : members = members.take index ++ members[index] :: members.drop (index + 1) := by
    rw [← List.drop_eq_getElem_cons bound, List.take_append_drop]
  have found := (split ▸ ascending : Ascending key
    (members.take index ++ members[index] :: members.drop (index + 1))).find?_gt
  rw [← split] at found
  rw [found, List.head?_drop]

theorem Ascending.find?_lt_getElem {members : List α} (ascending : Ascending key members)
    {index : Nat} (bound : index < members.length) :
    members.reverse.find? (fun other => decide (key other < key members[index])) =
      if 0 < index then members[index - 1]? else none := by
  have split : members = members.take index ++ members[index] :: members.drop (index + 1) := by
    rw [← List.drop_eq_getElem_cons bound, List.take_append_drop]
  have found := (split ▸ ascending : Ascending key
    (members.take index ++ members[index] :: members.drop (index + 1))).find?_lt
  rw [← split] at found
  rw [found, List.head?_reverse, List.getLast?_eq_getElem?, List.length_take, min_eq_left bound.le]
  split
  · next later => rw [List.getElem?_take_of_lt (Nat.sub_one_lt_of_lt later)]
  · next first => rw [Nat.eq_zero_of_not_pos first, List.take_zero, List.getElem?_nil]

end Index

/-! ### Searches of the blocks -/

omit [LinearOrder κ] in
theorem joined_append (index index' : List (κ × ι)) (contents : ι → List (κ × ν)) :
    joined (index ++ index') contents = joined index contents ++ joined index' contents :=
  List.flatMap_append

omit [LinearOrder κ] in
theorem head?_joined : (joined index contents).head? =
    index.findSome? fun entry => (contents entry.2).head? :=
  List.head?_flatMap

omit [LinearOrder κ] in
theorem getLast?_joined : (joined index contents).getLast? =
    index.reverse.findSome? fun entry => (contents entry.2).getLast? :=
  List.getLast?_flatMap

omit [LinearOrder κ] in
/-- A search that skips the earlier blocks and accepts everything in the later ones. -/
theorem find?_joined
    (skips : ∀ earlier ∈ before, ∀ binding ∈ contents earlier.2, ¬ condition binding = true)
    (accepts : ∀ later ∈ after, ∀ binding ∈ contents later.2, condition binding = true) :
    (joined (before ++ entry :: after) contents).find? condition =
      ((contents entry.2).find? condition).or
        (after.findSome? fun later => (contents later.2).head?) := by
  have nothing : (joined before contents).find? condition = none := by
    refine List.find?_eq_none.mpr fun binding member => ?_
    obtain ⟨earlier, isEarlier, inBlock⟩ := List.mem_flatMap.mp member
    exact skips earlier isEarlier binding inBlock
  have everything : (joined after contents).find? condition = (joined after contents).head? := by
    refine find?_eq_head?_of_forall fun binding member => ?_
    obtain ⟨later, isLater, inBlock⟩ := List.mem_flatMap.mp member
    exact accepts later isLater binding inBlock
  rw [joined_append, List.find?_append, nothing, Option.none_or, ← head?_joined, ← everything]
  exact List.find?_append

omit [LinearOrder κ] in
/-- The same search from the end. -/
theorem find?_reverse_joined
    (accepts : ∀ earlier ∈ before, ∀ binding ∈ contents earlier.2, condition binding = true)
    (skips : ∀ later ∈ after, ∀ binding ∈ contents later.2, ¬ condition binding = true) :
    (joined (before ++ entry :: after) contents).reverse.find? condition =
      ((contents entry.2).reverse.find? condition).or
        (before.reverse.findSome? fun earlier => (contents earlier.2).getLast?) := by
  have nothing : (joined after contents).reverse.find? condition = none := by
    refine List.find?_eq_none.mpr fun binding member => ?_
    obtain ⟨later, isLater, inBlock⟩ := List.mem_flatMap.mp (List.mem_reverse.mp member)
    exact skips later isLater binding inBlock
  have everything : (joined before contents).reverse.find? condition =
      (joined before contents).reverse.head? := by
    refine find?_eq_head?_of_forall fun binding member => ?_
    obtain ⟨earlier, isEarlier, inBlock⟩ := List.mem_flatMap.mp (List.mem_reverse.mp member)
    exact accepts earlier isEarlier binding inBlock
  have split : joined (entry :: after) contents = contents entry.2 ++ joined after contents := rfl
  rw [joined_append, split, List.reverse_append, List.reverse_append, List.find?_append,
    List.find?_append, nothing, Option.none_or, everything, List.head?_reverse, getLast?_joined]

/-! ### The order of the blocks -/

namespace Separated

/-- The keys of a block are greater than every separator before it. -/
theorem pairwise (separated : Separated index contents) :
    index.Pairwise fun earlier later => ∀ binding ∈ contents later.2, earlier.1 < binding.1 := by
  obtain ⟨ascending, -, -, behind⟩ := separated
  induction index with
  | nil => exact .nil
  | cons first rest inductionHypothesis =>
    obtain ⟨smallest, ascendingRest⟩ := List.pairwise_cons.mp ascending
    refine List.pairwise_cons.mpr ⟨?_, inductionHypothesis ascendingRest behind.tail⟩
    cases rest with
    | nil => exact fun later impossible => absurd impossible List.not_mem_nil
    | cons second others =>
      obtain ⟨next, behind⟩ := List.isChain_cons_cons.mp behind
      intro later member binding inBlock
      obtain rfl | isOther := List.mem_cons.mp member
      · exact next binding inBlock
      · have rest := inductionHypothesis ascendingRest behind
        exact (smallest second List.mem_cons_self).trans
          ((List.pairwise_cons.mp rest).1 later isOther binding inBlock)

/-- A search for a target goes to the first entry of the index at or above it: to its block, and then
to the blocks behind it. -/
theorem find?_ge (separated : Separated index contents) (target : κ) :
    ∃ before suffix, index = before ++ suffix ∧
      index.find? (fun entry => decide (target ≤ entry.1)) = suffix.head? ∧
      (joined index contents).find? (fun binding => decide (target ≤ binding.1)) =
        (suffix.head?.bind fun entry =>
          (contents entry.2).find? fun binding => decide (target ≤ binding.1)).or
          (suffix.tail.findSome? fun later => (contents later.2).head?) := by
  have below : ∀ {earlier}, earlier ∈ index → ¬ decide (target ≤ earlier.1) = true →
      ∀ binding ∈ contents earlier.2, ¬ decide (target ≤ binding.1) = true := by
    intro earlier member skipped binding inBlock high
    have low := separated.atMost earlier member binding inBlock
    exact skipped (decide_eq_true ((of_decide_eq_true high).trans low))
  cases found : index.find? fun entry => decide (target ≤ entry.1) with
  | none =>
    refine ⟨index, [], (List.append_nil _).symm, rfl, List.find?_eq_none.mpr fun binding member => ?_⟩
    obtain ⟨earlier, isEarlier, inBlock⟩ := List.mem_flatMap.mp member
    exact below isEarlier (List.find?_eq_none.mp found earlier isEarlier) binding inBlock
  | some entry =>
    obtain ⟨atMost, before, after, rfl, skipped⟩ := List.find?_eq_some_iff_append.mp found
    refine ⟨before, entry :: after, rfl, rfl, find?_joined (fun earlier member => ?_)
      fun later member binding inBlock => ?_⟩
    · have notAtLeast := skipped earlier member
      exact below (List.mem_append_left _ member) fun high => by simp [high] at notAtLeast
    · have greater := (List.pairwise_cons.mp (List.pairwise_append.mp separated.pairwise).2.1).1
      exact decide_eq_true ((of_decide_eq_true atMost).trans
        (greater later member binding inBlock).le)

variable (separated : Separated (before ++ entry :: after) contents)
include separated

variable {binding : κ × ν} (inEntry : binding ∈ contents entry.2)
include inEntry

theorem lt_later {later : κ × ι} (isLater : later ∈ after) {other : κ × ν}
    (inBlock : other ∈ contents later.2) : binding.1 < other.1 := by
  have greater := (List.pairwise_cons.mp (List.pairwise_append.mp separated.pairwise).2.1).1
  exact (separated.atMost entry (by simp) binding inEntry).trans_lt
    (greater later isLater other inBlock)

theorem earlier_lt {earlier : κ × ι} (isEarlier : earlier ∈ before) {other : κ × ν}
    (inBlock : other ∈ contents earlier.2) : other.1 < binding.1 := by
  have greater := (List.pairwise_append.mp separated.pairwise).2.2 earlier isEarlier entry
    List.mem_cons_self
  exact (separated.atMost earlier (List.mem_append_left _ isEarlier) other inBlock).trans_lt
    (greater binding inEntry)

theorem find?_gt :
    (joined (before ++ entry :: after) contents).find? (fun other => decide (binding.1 < other.1)) =
      ((contents entry.2).find? fun other => decide (binding.1 < other.1)).or
        (after.findSome? fun later => (contents later.2).head?) :=
  find?_joined
    (fun _ member _ inBlock high => lt_asymm (of_decide_eq_true high)
      (separated.earlier_lt inEntry member inBlock))
    fun _ member _ inBlock => decide_eq_true (separated.lt_later inEntry member inBlock)

theorem find?_lt :
    (joined (before ++ entry :: after) contents).reverse.find?
        (fun other => decide (other.1 < binding.1)) =
      ((contents entry.2).reverse.find? fun other => decide (other.1 < binding.1)).or
        (before.reverse.findSome? fun earlier => (contents earlier.2).getLast?) :=
  find?_reverse_joined
    (fun _ member _ inBlock => decide_eq_true (separated.earlier_lt inEntry member inBlock))
    fun _ member _ inBlock low => lt_asymm (of_decide_eq_true low)
      (separated.lt_later inEntry member inBlock)

end Separated

end LevelDb.Lib
