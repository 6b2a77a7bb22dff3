/-
This file develops layered chains: nodes threaded through one link a level, each chain sorted by
key and made of nodes of the chain below. A member's link leads to the first member after it, the
node at which a search stops is the last one the search accepts, and a fresh node can be spliced in
behind that node without disturbing the order.
-/

import LevelDb.Lib.Ascending
import LevelDb.Lib.Cursor
import Mathlib.Order.WithBot

namespace LevelDb.Lib

variable {ι κ : Type}

/-! ### Threads -/

/-- The links lead from a node through the members in order and end after the last of them. -/
def Threads (next : ι → Option ι) : ι → List ι → Prop
  | node, [] => next node = none
  | node, first :: rest => next node = some first ∧ Threads next first rest

namespace Threads

variable {next next' : ι → Option ι} {node fresh : ι} {members before after : List ι}

theorem next_eq (threads : Threads next node members) : next node = members.head? := by
  cases members with
  | nil => exact threads
  | cons first rest => exact threads.1

/-- The members behind a member are threaded from it. -/
theorem behind (threads : Threads next node (before ++ after)) :
    Threads next (before.getLastD node) after := by
  induction before generalizing node with
  | nil => exact threads
  | cons first rest inductionHypothesis =>
    rw [List.getLastD_cons]
    exact inductionHypothesis threads.2

/-- A thread stays when the links of its nodes do not change. -/
theorem frame (threads : Threads next node members)
    (same : ∀ other ∈ node :: members, next' other = next other) : Threads next' node members := by
  induction members generalizing node with
  | nil => exact (same node List.mem_cons_self).trans threads
  | cons first rest inductionHypothesis =>
    exact ⟨(same node List.mem_cons_self).trans threads.1, inductionHypothesis threads.2
      fun other member => same other (List.mem_cons_of_mem _ member)⟩

/-- A fresh node that takes over the link of a member, and to which that member then points, is
threaded right behind it. -/
theorem splice (threads : Threads next node (before ++ after))
    (nodup : (node :: (before ++ after)).Nodup) (isFresh : fresh ∉ node :: (before ++ after))
    (takesOver : next' fresh = next (before.getLastD node))
    (published : next' (before.getLastD node) = some fresh)
    (others : ∀ other, other ≠ fresh → other ≠ before.getLastD node → next' other = next other) :
    Threads next' node (before ++ fresh :: after) := by
  induction before generalizing node with
  | nil =>
    refine ⟨published, ?_⟩
    have unchanged : ∀ other ∈ after, next' other = next other := fun other member =>
      others other (ne_of_mem_of_not_mem (List.mem_cons_of_mem _ member) isFresh)
        (ne_of_mem_of_not_mem member (List.nodup_cons.mp nodup).1)
    cases after with
    | nil => exact takesOver.trans threads
    | cons first rest => exact ⟨takesOver.trans threads.1, frame threads.2 unchanged⟩
  | cons first rest inductionHypothesis =>
    rw [List.getLastD_cons] at takesOver published others
    have node_ne : node ≠ rest.getLastD first := by
      refine (ne_of_mem_of_not_mem ?_ (List.nodup_cons.mp nodup).1).symm
      have inRest : rest.getLastD first ∈ first :: rest := List.getLastD_mem_cons
      exact List.mem_append_left _ inRest
    refine ⟨(others node (ne_of_mem_of_not_mem List.mem_cons_self isFresh) node_ne).trans threads.1,
      ?_⟩
    exact inductionHypothesis threads.2 (List.nodup_cons.mp nodup).2
      (fun member => isFresh (List.mem_cons_of_mem _ member)) takesOver published others

end Threads

/-! ### The node a search stops at -/

section Sorted

variable [LinearOrder κ] [DecidableEq ι] {key : ι → κ} {members : List ι}
  {next next' : ι → Option ι} {head node : ι} {goesOn : ι → Bool}

variable (key head) in
/-- The place of a node in the order; the head comes before every key. -/
def position (node : ι) : WithBot κ := if node = head then ⊥ else (key node : WithBot κ)

omit [LinearOrder κ] in
theorem position_head : position key head head = ⊥ := if_pos rfl

omit [LinearOrder κ] in
theorem position_of_ne (distinct : node ≠ head) : position key head node = (key node : WithBot κ) :=
  if_neg distinct

/-- The link of the head or of a member leads to the first member after it. -/
theorem Threads.next_eq_find? (threads : Threads next head members)
    (ascending : Ascending key members) (noHead : head ∉ members) (member : node ∈ head :: members) :
    next node = members.find? fun other => decide (position key head node < key other) := by
  obtain rfl | inMembers := List.mem_cons.mp member
  · rw [threads.next_eq, position_head]
    cases members with
    | nil => rfl
    | cons first rest => exact (List.find?_cons_of_pos (by simp)).symm
  · obtain ⟨before, after, rfl, smaller, greater⟩ := ascending.cut inMembers
    have behind : Threads next node after := by
      have threads' : Threads next head ((before ++ [node]) ++ after) := by simpa using threads
      simpa using threads'.behind
    rw [position_of_ne (ne_of_mem_of_not_mem inMembers noHead), behind.next_eq, List.find?_append,
      List.find?_eq_none.mpr fun other otherIn => by simpa using (smaller other otherIn).le,
      Option.none_or, List.find?_cons_of_neg (by simp)]
    cases after with
    | nil => rfl
    | cons first rest =>
      exact (List.find?_cons_of_pos (by simpa using greater first List.mem_cons_self)).symm

variable (key head) in
/-- The node up to which, and no further, the members of a chain meet a condition. -/
structure StopsAt (members : List ι) (goesOn : ι → Bool) (node : ι) : Prop where
  mem : node ∈ head :: members
  upTo : ∀ member ∈ members, goesOn member = true ↔ (key member : WithBot κ) ≤ position key head node

namespace StopsAt

/-- A search that accepts downwards stops at an accepted node whose link leads to no other. -/
theorem of_stop (threads : Threads next head members) (ascending : Ascending key members)
    (noHead : head ∉ members)
    (downwards : ∀ first ∈ members, ∀ second ∈ members, key first ≤ key second →
      goesOn second = true → goesOn first = true)
    (member : node ∈ head :: members) (accepted : node = head ∨ goesOn node = true)
    (stops : ∀ other, next node = some other → goesOn other = false) :
    StopsAt key head members goesOn node := by
  refine ⟨member, fun other otherIn => ⟨fun goes => ?_, fun upTo => ?_⟩⟩
  · by_contra behind
    have found : ((members.find? fun other => decide (position key head node < key other)).isSome) :=
      List.find?_isSome.mpr ⟨other, otherIn, decide_eq_true (not_le.mp behind)⟩
    obtain ⟨first, isFirst⟩ := Option.isSome_iff_exists.mp found
    have refused := stops first ((threads.next_eq_find? ascending noHead member).trans isFirst)
    have accepts := downwards first (List.mem_of_find?_eq_some isFirst) other otherIn
      (ascending.le_of_find? isFirst otherIn (decide_eq_true (not_le.mp behind))) goes
    rw [refused] at accepts
    cases accepts
  · obtain rfl | goes := accepted
    · rw [position_head] at upTo
      exact absurd upTo (not_le.mpr (WithBot.bot_lt_coe _))
    · obtain rfl | inMembers := List.mem_cons.mp member
      · rw [position_head] at upTo
        exact absurd upTo (not_le.mpr (WithBot.bot_lt_coe _))
      · rw [position_of_ne (ne_of_mem_of_not_mem inMembers noHead)] at upTo
        exact downwards other otherIn node inMembers (WithBot.coe_le_coe.mp upTo) goes

/-- The link of the node leads to the first member the search refuses. -/
theorem next_eq_find? (stopsAt : StopsAt key head members goesOn node)
    (threads : Threads next head members) (ascending : Ascending key members)
    (noHead : head ∉ members) : next node = members.find? fun other => !goesOn other := by
  rw [threads.next_eq_find? ascending noHead stopsAt.mem]
  refine find?_congr_of_mem fun other member => ?_
  have upTo := stopsAt.upTo other member
  cases goes : goesOn other with
  | true => exact decide_eq_false (not_lt.mpr (upTo.mp goes))
  | false => exact decide_eq_true (not_le.mp fun reached => Bool.noConfusion (goes ▸ upTo.mpr reached))

/-- The node is the last member the search accepts, or the head when it accepts none. -/
theorem last_eq_find? (stopsAt : StopsAt key head members goesOn node)
    (ascending : Ascending key members) :
    (if node = head then none else some node) = members.reverse.find? goesOn := by
  split
  next isHead =>
    refine (List.find?_eq_none.mpr fun other member goes => ?_).symm
    have reached := (stopsAt.upTo other (List.mem_reverse.mp member)).mp goes
    rw [isHead, position_head] at reached
    exact absurd reached (not_le.mpr (WithBot.bot_lt_coe _))
  next distinct =>
    have member : node ∈ members := (List.mem_cons.mp stopsAt.mem).resolve_left distinct
    have place : position key head node = key node := position_of_ne distinct
    refine (find?_eq_some_of_least (List.pairwise_reverse.mpr ascending)
      (List.mem_reverse.mpr member) ((stopsAt.upTo node member).mpr place.ge)
      fun other otherIn goes => ?_).symm
    have reached := (stopsAt.upTo other (List.mem_reverse.mp otherIn)).mp goes
    rw [place] at reached
    exact not_lt.mpr (WithBot.coe_le_coe.mp reached)

/-- A fresh node that is linked in behind the last node with a smaller key joins the chain at its
place in the order. -/
theorem splice {fresh : ι} (stopsAt : StopsAt key head members (fun other => key other < key fresh) node)
    (threads : Threads next head members) (ascending : Ascending key members)
    (noHead : head ∉ members) (isFresh : fresh ∉ head :: members)
    (distinct : ∀ other ∈ members, key other ≠ key fresh)
    (takesOver : next' fresh = next node) (published : next' node = some fresh)
    (others : ∀ other, other ≠ fresh → other ≠ node → next' other = next other) :
    ∃ members', Threads next' head members' ∧ Ascending key members' ∧
      members'.Perm (fresh :: members) := by
  obtain ⟨before, after, rfl, isLast, reached, behind⟩ : ∃ before after, members = before ++ after ∧
      before.getLastD head = node ∧
        (∀ other ∈ before, (key other : WithBot κ) ≤ position key head node) ∧
          ∀ other ∈ after, ¬ (key other : WithBot κ) ≤ position key head node := by
    obtain rfl | member := List.mem_cons.mp stopsAt.mem
    · refine ⟨[], members, rfl, rfl, by simp, fun other _ => ?_⟩
      rw [position_head]
      exact not_le.mpr (WithBot.bot_lt_coe _)
    · obtain ⟨before, after, rfl, smaller, greater⟩ := ascending.cut member
      rw [position_of_ne (ne_of_mem_of_not_mem member noHead)]
      refine ⟨before ++ [node], after, by simp, List.getLastD_concat, fun other otherIn => ?_,
        fun other otherIn => not_le.mpr (WithBot.coe_lt_coe.mpr (greater other otherIn))⟩
      obtain inBefore | inLast := List.mem_append.mp otherIn
      · exact WithBot.coe_le_coe.mpr (smaller other inBefore).le
      · rw [List.mem_singleton.mp inLast]
  have less : ∀ other ∈ before, key other < key fresh := fun other member =>
    of_decide_eq_true ((stopsAt.upTo other (List.mem_append_left _ member)).mpr (reached other member))
  have greater : ∀ other ∈ after, key fresh < key other := by
    intro other member
    have inMembers := List.mem_append_right before member
    refine lt_of_le_of_ne (not_lt.mp fun smaller => ?_) (distinct other inMembers).symm
    exact behind other member ((stopsAt.upTo other inMembers).mp (decide_eq_true smaller))
  obtain ⟨ascendingBefore, ascendingAfter, across⟩ := List.pairwise_append.mp ascending
  refine ⟨before ++ fresh :: after, ?_, ?_, List.perm_middle⟩
  · exact threads.splice (List.nodup_cons.mpr ⟨noHead, ascending.nodup⟩) isFresh (isLast ▸ takesOver)
      (isLast ▸ published) fun other notFresh notLast => others other notFresh (isLast ▸ notLast)
  · refine List.pairwise_append.mpr ⟨ascendingBefore, List.pairwise_cons.mpr ⟨greater,
      ascendingAfter⟩, fun first firstIn second secondIn => ?_⟩
    obtain rfl | inAfter := List.mem_cons.mp secondIn
    · exact less first firstIn
    · exact across first firstIn second inAfter

/-- Only the keys of the members count. -/
theorem congr {key' : ι → κ} {goesOn' : ι → Bool} (stopsAt : StopsAt key head members goesOn node)
    (noHead : head ∉ members) (same : ∀ other ∈ members, key' other = key other)
    (accepts : ∀ other ∈ members, goesOn' other = goesOn other) :
    StopsAt key' head members goesOn' node := by
  refine ⟨stopsAt.mem, fun other member => ?_⟩
  have place : position key' head node = position key head node := by
    obtain rfl | nodeIn := List.mem_cons.mp stopsAt.mem
    · rw [position_head, position_head]
    · have distinct := ne_of_mem_of_not_mem nodeIn noHead
      rw [position_of_ne distinct, position_of_ne distinct, same node nodeIn]
  rw [accepts other member, same other member, place]
  exact stopsAt.upTo other member

end StopsAt

/-! ### Layers -/

/-- Chains over one head, one a level, each made of nodes of the chain below. -/
structure Layers (key : ι → κ) (next : ι → Nat → Option ι) (head : ι) (height : Nat)
    (chains : Nat → List ι) : Prop where
  threads : ∀ level < height, Threads (fun node => next node level) head (chains level)
  ascending : ∀ level < height, Ascending key (chains level)
  below : ∀ level, level + 1 < height → chains (level + 1) ⊆ chains level
  noHead : head ∉ chains 0

namespace Layers

variable {links links' : ι → Nat → Option ι} {height level : Nat} {chains : Nat → List ι}

omit [DecidableEq ι] in
theorem subset_bottom (layers : Layers key links head height chains) (inRange : level < height) :
    chains level ⊆ chains 0 := by
  induction level with
  | zero => exact List.Subset.refl _
  | succ level inductionHypothesis =>
    exact List.Subset.trans (layers.below level inRange)
      (inductionHypothesis (Nat.lt_of_succ_lt inRange))

omit [DecidableEq ι] in
theorem noHead_at (layers : Layers key links head height chains) (inRange : level < height) :
    head ∉ chains level :=
  fun member => layers.noHead (layers.subset_bottom inRange member)

omit [DecidableEq ι] in
theorem sublist (layers : Layers key links head height chains) (inRange : level + 1 < height) :
    (chains (level + 1)).Sublist (chains level) :=
  (layers.ascending _ inRange).sublist (layers.ascending _ (Nat.lt_of_succ_lt inRange))
    (layers.below level inRange)

omit [DecidableEq ι] in
/-- The layers stay when the links and the keys of their nodes do not change. -/
theorem frame {key' : ι → κ} (layers : Layers key links head height chains)
    (sameLinks : ∀ level < height, ∀ node ∈ head :: chains level, links' node level = links node level)
    (sameKeys : ∀ node ∈ chains 0, key' node = key node) : Layers key' links' head height chains where
  threads level inRange := (layers.threads level inRange).frame (sameLinks level inRange)
  ascending level inRange := by
    refine (layers.ascending level inRange).imp_of_mem fun firstIn secondIn less => ?_
    rwa [sameKeys _ (layers.subset_bottom inRange firstIn),
      sameKeys _ (layers.subset_bottom inRange secondIn)]
  below := layers.below
  noHead := layers.noHead

/-- A fresh node of the chain below that is linked in behind the last node with a smaller key joins
the chain of its level, and no other chain changes. -/
theorem splice {fresh : ι} (layers : Layers key links head height chains) (inRange : level < height)
    (stopsAt : StopsAt key head (chains level) (fun other => key other < key fresh) node)
    (isFresh : fresh ∉ head :: chains level)
    (joinedBelow : ∀ lower, level = lower + 1 → fresh ∈ chains lower)
    (distinct : ∀ other ∈ chains level, key other ≠ key fresh)
    (takesOver : links' fresh level = links node level) (published : links' node level = some fresh)
    (others : ∀ other, other ≠ fresh → other ≠ node → links' other level = links other level)
    (otherLevels : ∀ other lower, lower ≠ level → links' other lower = links other lower) :
    ∃ chains', Layers key links' head height chains' ∧
      (chains' level).Perm (fresh :: chains level) ∧ ∀ lower, lower ≠ level → chains' lower = chains lower := by
  obtain ⟨members, threads, ascending, perm⟩ :=
    @StopsAt.splice _ _ _ _ _ _ _ (fun node => links' node level) _ _ _ stopsAt
      (layers.threads level inRange) (layers.ascending level inRange) (layers.noHead_at inRange)
      isFresh distinct takesOver published others
  refine ⟨Function.update chains level members, ⟨fun lower lowerInRange => ?_,
    fun lower lowerInRange => ?_, fun lower lowerInRange => ?_, ?_⟩, ?_, fun lower otherLevel => ?_⟩
  · obtain rfl | otherLevel := eq_or_ne lower level
    · rwa [Function.update_self]
    · rw [Function.update_of_ne otherLevel]
      exact (layers.threads lower lowerInRange).frame fun other _ => otherLevels other lower otherLevel
  · obtain rfl | otherLevel := eq_or_ne lower level
    · rwa [Function.update_self]
    · rw [Function.update_of_ne otherLevel]
      exact layers.ascending lower lowerInRange
  · obtain rfl | otherUpper := eq_or_ne (lower + 1) level
    · rw [Function.update_self, Function.update_of_ne (Nat.succ_ne_self lower).symm]
      exact List.Subset.trans perm.subset (List.cons_subset.mpr ⟨joinedBelow lower rfl,
        layers.below lower lowerInRange⟩)
    · rw [Function.update_of_ne otherUpper]
      obtain rfl | otherLevel := eq_or_ne lower level
      · rw [Function.update_self]
        exact List.Subset.trans (layers.below lower lowerInRange)
          (List.Subset.trans (List.subset_cons_self fresh _) perm.symm.subset)
      · rw [Function.update_of_ne otherLevel]
        exact layers.below lower lowerInRange
  · obtain rfl | otherLevel := eq_or_ne 0 level
    · rw [Function.update_self]
      exact fun member => (List.mem_cons.mp (perm.subset member)).elim
        (fun isFreshNode => isFresh (isFreshNode ▸ List.mem_cons_self)) layers.noHead
    · rw [Function.update_of_ne otherLevel]
      exact layers.noHead
  · rw [Function.update_self]
    exact perm
  · exact Function.update_of_ne otherLevel _ _

end Layers

end Sorted

end LevelDb.Lib
