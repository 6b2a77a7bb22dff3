/-
This file proves that the searches of a skip list agree with its bottom chain. The chains may have
any heights, and levels in use may still be empty: a reader then drops through them at once. What a
reader needs is only that the chains are layered and that no chain is higher than `maxHeight`.
-/

import LevelDb.SkipList

namespace LevelDb.SkipList

open Lib

variable {κ : Type} [LinearOrder κ]

/-- The chains of a skip list, one for each link a node can have. -/
structure Shape (list : SkipList κ) (chains : Nat → List Nat) : Prop where
  layers : Layers list.key list.next head kMaxHeight chains
  inUse : 1 ≤ list.maxHeight ∧ list.maxHeight ≤ kMaxHeight
  empty : ∀ level, list.maxHeight ≤ level → level < kMaxHeight → chains level = []
  allocated : ∀ node ∈ head :: chains 0, node < list.nodes

/-- The nodes of a chain as the bindings of an ordered map. -/
def bindings (list : SkipList κ) (members : List Nat) : List (κ × Nat) :=
  members.map fun n => (list.key n, n)

variable {list : SkipList κ} {chains : Nat → List Nat}

namespace Shape

theorem threads (shape : list.Shape chains) :
    Threads (fun node => list.next node 0) head (chains 0) :=
  shape.layers.threads 0 (by decide)

theorem ascending (shape : list.Shape chains) : Ascending list.key (chains 0) :=
  shape.layers.ascending 0 (by decide)

/-- There are more rounds than nodes that a search could still visit. -/
theorem length_lt_rounds (shape : list.Shape chains) :
    list.maxHeight - 1 + (chains 0).length < list.rounds := by
  have nodup : (head :: chains 0).Nodup :=
    List.nodup_cons.mpr ⟨shape.layers.noHead, shape.ascending.nodup⟩
  have bound := (List.subperm_of_subset nodup
    fun node member => List.mem_range.mpr (shape.allocated node member)).length_le
  rw [List.length_cons, List.length_range] at bound
  have := shape.inUse.1
  unfold rounds
  omega

/-- Fewer nodes lie behind a later node. -/
theorem countP_behind_lt {members : List Nat} {key : Nat → κ} {first second : WithBot κ} {node : Nat}
    (member : node ∈ members) (behind : first < key node) (reached : (key node : WithBot κ) ≤ second) :
    (members.countP fun other => decide (second < key other)) <
      members.countP fun other => decide (first < key other) := by
  have first_lt : first < second := behind.trans_le reached
  rw [List.countP_eq_length_filter, List.countP_eq_length_filter]
  have sublist : (members.filter fun other => decide (second < key other)).Sublist
      (members.filter fun other => decide (first < key other)) :=
    List.monotone_filter_right members fun other later =>
      decide_eq_true (first_lt.trans (of_decide_eq_true later))
  refine lt_of_le_of_ne sublist.length_le fun sameLength => ?_
  have inFirst : node ∈ members.filter fun other => decide (first < key other) :=
    List.mem_filter.mpr ⟨member, decide_eq_true behind⟩
  rw [← sublist.eq_of_length sameLength] at inFirst
  exact not_lt.mpr reached (of_decide_eq_true (List.mem_filter.mp inFirst).2)

/-- A search that accepts downwards stops, on every level it passes, at the last accepted node. -/
theorem descend_stops (shape : list.Shape chains) {goesOn : Nat → Bool}
    (downwards : ∀ first second, list.key first ≤ list.key second → goesOn second = true →
      goesOn first = true)
    {fuel x level : Nat} {prev : Nat → Nat} (inRange : level < kMaxHeight)
    (member : x ∈ head :: chains level) (accepted : x = head ∨ goesOn x = true)
    (enough : level + ((chains 0).countP fun n => decide (position list.key head x < list.key n)) < fuel) :
    ∃ prev', list.descend goesOn fuel x level prev = some (prev' 0, prev') ∧
      (∀ lower ≤ level, StopsAt list.key head (chains lower) goesOn (prev' lower)) ∧
        ∀ upper, level < upper → prev' upper = prev upper := by
  induction fuel generalizing x level prev with
  | zero => exact absurd enough (Nat.not_lt_zero _)
  | succ fuel inductionHypothesis =>
    have next_eq := (shape.layers.threads level inRange).next_eq_find?
      (shape.layers.ascending level inRange) (shape.layers.noHead_at inRange) member
    rw [descend]
    cases goes : (list.next x level).filter goesOn with
    | some n =>
      obtain ⟨isNext, goesOn_n⟩ := Option.filter_eq_some_iff.mp goes
      rw [next_eq] at isNext
      have inLevel := List.mem_of_find?_eq_some isNext
      have isBehind : decide (position list.key head x < list.key n) = true :=
        (List.find?_eq_some_iff_append.mp isNext).1
      have n_ne := ne_of_mem_of_not_mem inLevel (shape.layers.noHead_at inRange)
      refine inductionHypothesis inRange (List.mem_cons_of_mem _ inLevel) (.inr goesOn_n) ?_
      have place : position list.key head n = list.key n := position_of_ne n_ne
      have fewer := countP_behind_lt (shape.layers.subset_bottom inRange inLevel)
        (of_decide_eq_true isBehind) place.ge
      omega
    | none =>
      have stopsAt : StopsAt list.key head (chains level) goesOn x := by
        refine .of_stop (shape.layers.threads level inRange) (shape.layers.ascending level inRange)
          (shape.layers.noHead_at inRange) (fun first _ second _ => downwards first second) member
          accepted fun other isNext => ?_
        have refused := Option.filter_eq_none_iff.mp goes other isNext
        exact Bool.eq_false_iff.mpr refused
      cases level with
      | zero =>
        refine ⟨Function.update prev 0 x, by simp, fun lower atMost => ?_,
          fun upper above => Function.update_of_ne above.ne' _ _⟩
        obtain rfl := Nat.le_zero.mp atMost
        rwa [Function.update_self]
      | succ level =>
        have below := shape.layers.below level inRange
        obtain ⟨prev', result, stops, unchanged⟩ := @inductionHypothesis x level
          (Function.update prev (level + 1) x) (Nat.lt_of_succ_lt inRange)
          (List.cons_subset_cons head below member) accepted (by omega)
        refine ⟨prev', result, fun lower atMost => ?_, fun upper above => ?_⟩
        · obtain lower_le | rfl := Nat.le_succ_iff.mp atMost
          · exact stops lower lower_le
          · rwa [unchanged _ (Nat.lt_succ_self level), Function.update_self]
        · rw [unchanged upper (Nat.lt_of_succ_lt above), Function.update_of_ne above.ne']

/-- A search from the head stops on every level in use at the last accepted node. -/
theorem search_stops (shape : list.Shape chains) {goesOn : Nat → Bool}
    (downwards : ∀ first second, list.key first ≤ list.key second → goesOn second = true →
      goesOn first = true) (prev : Nat → Nat) :
    ∃ prev', list.descend goesOn list.rounds head (list.maxHeight - 1) prev = some (prev' 0, prev') ∧
      ∀ level < list.maxHeight, StopsAt list.key head (chains level) goesOn (prev' level) := by
  obtain ⟨low, high⟩ := shape.inUse
  have enough := shape.length_lt_rounds
  have count_le : ((chains 0).countP fun n => decide (position list.key head head < list.key n)) ≤
      (chains 0).length := List.countP_le_length
  obtain ⟨prev', result, stops, -⟩ := @descend_stops _ _ _ _ shape _ downwards list.rounds head
    (list.maxHeight - 1) prev (by omega) List.mem_cons_self (.inl rfl) (by omega)
  exact ⟨prev', result, fun level inUse => stops level (Nat.le_sub_one_of_lt inUse)⟩

theorem downwards_lt (key : κ) (first second : Nat) (le : list.key first ≤ list.key second)
    (goes : decide (list.key second < key) = true) : decide (list.key first < key) = true :=
  decide_eq_true (le.trans_lt (of_decide_eq_true goes))

/-- The search for a key finds the first node at or after it, and on every level in use the last
node before it. -/
theorem findGreaterOrEqual_eq (shape : list.Shape chains) (key : κ) (prev : Nat → Nat) :
    ∃ prev', list.findGreaterOrEqual key prev =
        some ((chains 0).find? fun n => decide (key ≤ list.key n), prev') ∧
      ∀ level < list.maxHeight,
        StopsAt list.key head (chains level) (fun n => decide (list.key n < key)) (prev' level) := by
  obtain ⟨prev', result, stops⟩ := shape.search_stops (downwards_lt key) prev
  refine ⟨prev', ?_, stops⟩
  have next_eq := (stops 0 shape.inUse.1).next_eq_find? shape.threads shape.ascending
    shape.layers.noHead
  have sameTest : (fun n => !decide (list.key n < key)) = fun n => decide (key ≤ list.key n) := by
    funext n
    rw [← decide_not]
    exact decide_eq_decide.mpr not_lt
  rw [findGreaterOrEqual, show list.keyIsAfterNode key = fun n => decide (list.key n < key) from rfl,
    result, Option.map_some, next_eq, sameTest]

/-- The search for the node before a key finds the last one. -/
theorem findLessThan_eq (shape : list.Shape chains) (key : κ) :
    (list.findLessThan key).map (fun x => if x = head then none else some x) =
      some ((chains 0).reverse.find? fun n => decide (list.key n < key)) := by
  obtain ⟨prev', result, stops⟩ := shape.search_stops (downwards_lt key) fun _ => head
  rw [findLessThan, result, Option.map_some, Option.map_some,
    (stops 0 shape.inUse.1).last_eq_find? shape.ascending]

/-- The search for the end finds the last node. -/
theorem findLast_eq (shape : list.Shape chains) :
    list.findLast.map (fun x => if x = head then none else some x) = some (chains 0).getLast? := by
  obtain ⟨prev', result, stops⟩ := @search_stops _ _ _ _ shape (fun _ => true)
    (fun _ _ _ _ => rfl) fun _ => head
  rw [findLast, result, Option.map_some, Option.map_some,
    (stops 0 shape.inUse.1).last_eq_find? shape.ascending, ← List.head?_reverse]
  cases (chains 0).reverse <;> rfl

/-- `Contains` answers whether the key is in the bottom chain. -/
theorem contains_eq (shape : list.Shape chains) (key : κ) :
    list.contains key = some (decide (key ∈ (chains 0).map list.key)) := by
  obtain ⟨prev', result, -⟩ := shape.findGreaterOrEqual_eq key fun _ => head
  rw [contains, result, Option.map_some]
  refine congrArg some ?_
  by_cases present : key ∈ (chains 0).map list.key
  · obtain ⟨node, member, rfl⟩ := List.mem_map.mp present
    have found : ((chains 0).find? fun n => decide (list.key node ≤ list.key n)) = some node :=
      find?_eq_some_of_least shape.ascending member (decide_eq_true le_rfl)
        fun other _ atLeast => not_lt.mpr (of_decide_eq_true atLeast)
    rw [found, decide_eq_true present]
    exact decide_eq_true rfl
  · rw [decide_eq_false present]
    cases found : (chains 0).find? fun n => decide (key ≤ list.key n) with
    | none => rfl
    | some node =>
      exact decide_eq_false fun same =>
        present (same ▸ List.mem_map_of_mem (List.mem_of_find?_eq_some found))

/-- Every call on an iterator moves it as it moves a cursor over the bottom chain. -/
theorem iterate_eq (shape : list.Shape chains) {node : Option Nat}
    (onChain : ∀ n ∈ node, n ∈ chains 0) (call : CursorCall κ) :
    list.iterate node call =
      (cursorStep (list.bindings (chains 0)) (node.map fun n => (list.key n, n)) call).map
        (Option.map Prod.snd) := by
  cases call with
  | seek target =>
    obtain ⟨prev', result, -⟩ := shape.findGreaterOrEqual_eq target fun _ => head
    rw [iterate, result, cursorStep, bindings, List.find?_map]
    simp [Function.comp_def]
  | seekToFirst =>
    rw [iterate, cursorStep, bindings, shape.threads.next_eq]
    simp [Function.comp_def]
  | seekToLast =>
    rw [iterate, findLast_eq shape, cursorStep, bindings]
    simp [Function.comp_def]
  | next =>
    cases node with
    | none => rfl
    | some n =>
      have member := onChain n rfl
      have place : position list.key head n = list.key n :=
        position_of_ne (ne_of_mem_of_not_mem member shape.layers.noHead)
      have next_eq := shape.threads.next_eq_find? shape.ascending shape.layers.noHead
        (List.mem_cons_of_mem _ member)
      rw [iterate, Option.map_some, next_eq, place, Option.map_some, cursorStep, bindings,
        Option.map_some, List.find?_map]
      simp [Function.comp_def]
  | prev =>
    cases node with
    | none => rfl
    | some n =>
      rw [iterate, Option.bind_some, shape.findLessThan_eq, Option.map_some, cursorStep,
        Option.map_some, bindings, ← List.map_reverse, List.find?_map]
      simp [Function.comp_def]

end Shape

end LevelDb.SkipList
