/-
This file develops circular doubly linked lists: nodes threaded through their own `next` and
`prev` pointers, with a dummy node as the head. Several rings can share one set of pointers, and
an insertion or a removal in one of them leaves the others alone.
-/

import Mathlib.Data.List.Chain
import Mathlib.Data.List.Nodup
import Mathlib.Logic.Function.Basic

namespace LevelDb.Lib

/-- The pointers of every node. -/
structure Links (ι : Type) where
  next : ι → ι
  prev : ι → ι

namespace Links

variable {ι : Type}

/-- The pointers between two neighbours. -/
def Linked (links : Links ι) (first second : ι) : Prop :=
  links.next first = second ∧ links.prev second = first

/-- The ring of a head and its members, in order. -/
structure Ring (links : Links ι) (head : ι) (members : List ι) : Prop where
  nodup : (head :: members).Nodup
  chain : (head :: (members ++ [head])).IsChain links.Linked

variable {links links' : Links ι} {head node : ι} {members : List ι}

namespace Ring

theorem head_notMem (ring : Ring links head members) : head ∉ members :=
  (List.nodup_cons.mp ring.nodup).1

theorem members_nodup (ring : Ring links head members) : members.Nodup :=
  (List.nodup_cons.mp ring.nodup).2

theorem cut (ring : Ring links head members) :
    ((head :: members) ++ [head]).IsChain links.Linked := ring.chain

/-- The pointers from the head and back to it. -/
theorem ends (ring : Ring links head members) :
    links.next head = members.headD head ∧
      links.prev head = (head :: members).getLast (List.cons_ne_nil head members) := by
  constructor
  · cases members with
    | nil => exact (List.isChain_cons_cons.mp ring.chain).1.1
    | cons first rest => exact (List.isChain_cons_cons.mp ring.chain).1.1
  · exact ((List.isChain_append.mp ring.cut).2.2 _ (List.getLast?_eq_some_getLast (by simp)) head
      rfl).2

theorem prev_head_mem (ring : Ring links head members) : links.prev head ∈ head :: members := by
  rw [ring.ends.2]
  exact List.getLast_mem _

/-- A ring stays a ring when the pointers of its nodes do not change. -/
theorem frame (ring : Ring links head members)
    (next : ∀ other ∈ head :: members, links'.next other = links.next other)
    (prev : ∀ other ∈ head :: members, links'.prev other = links.prev other) :
    Ring links' head members := by
  refine ⟨ring.nodup, ring.chain.imp_of_mem_imp fun first second firstIn secondIn linked => ?_⟩
  have inRing : ∀ {other}, other ∈ head :: (members ++ [head]) → other ∈ head :: members := by
    intro other member
    simp only [List.mem_cons, List.mem_append, List.not_mem_nil, or_false] at member ⊢
    tauto
  exact ⟨(next _ (inRing firstIn)).trans linked.1, (prev _ (inRing secondIn)).trans linked.2⟩

/-- A ring without members is a head that is its own successor. -/
theorem next_head_eq_iff (ring : Ring links head members) : links.next head = head ↔ members = [] := by
  rw [ring.ends.1]
  cases members with
  | nil => exact iff_of_true rfl rfl
  | cons first rest =>
    refine iff_of_false (fun same => ring.head_notMem ?_) (List.cons_ne_nil _ _)
    rw [← same]
    exact List.mem_cons_self

/-- The neighbours of a member are in its ring. -/
theorem next_mem (ring : Ring links head members) (member : node ∈ members) :
    links.next node ∈ head :: members := by
  obtain ⟨before, after, rfl⟩ := List.append_of_mem member
  have chain : (head :: before ++ node :: (after ++ [head])).IsChain links.Linked := by
    simpa using ring.chain
  have tail := (List.isChain_append.mp chain).2.1
  cases after with
  | nil =>
    rw [(List.isChain_cons_cons.mp tail).1.1]
    exact List.mem_cons_self
  | cons first rest =>
    rw [(List.isChain_cons_cons.mp tail).1.1]
    simp

theorem prev_mem (ring : Ring links head members) (member : node ∈ members) :
    links.prev node ∈ head :: members := by
  obtain ⟨before, after, rfl⟩ := List.append_of_mem member
  have chain : (head :: before ++ node :: (after ++ [head])).IsChain links.Linked := by
    simpa using ring.chain
  have joined := (List.isChain_append.mp chain).2.2 _
    (List.getLast?_eq_some_getLast (List.cons_ne_nil head before)) node rfl
  rw [joined.2]
  have inFront := List.getLast_mem (List.cons_ne_nil head before)
  rcases List.mem_cons.mp inFront with same | member
  · rw [same]
    exact List.mem_cons_self
  · exact List.mem_cons_of_mem _ (List.mem_append_left _ member)

/-- No member is its own successor. -/
theorem next_ne_self (ring : Ring links head members) (member : node ∈ members) :
    links.next node ≠ node := by
  obtain ⟨before, after, rfl⟩ := List.append_of_mem member
  have chain : (head :: before ++ node :: (after ++ [head])).IsChain links.Linked := by
    simpa using ring.chain
  have tail := (List.isChain_append.mp chain).2.1
  cases after with
  | nil =>
    rw [(List.isChain_cons_cons.mp tail).1.1]
    exact fun same => ring.head_notMem (same ▸ member)
  | cons first rest =>
    rw [(List.isChain_cons_cons.mp tail).1.1]
    intro same
    have distinct := (List.nodup_append.mp ring.members_nodup).2.1
    exact (List.nodup_cons.mp distinct).1 (same ▸ List.mem_cons_self)

/-- No member is its own predecessor. -/
theorem prev_ne_self (ring : Ring links head members) (member : node ∈ members) :
    links.prev node ≠ node := by
  intro same
  obtain ⟨before, after, rfl⟩ := List.append_of_mem member
  have chain : (head :: before ++ node :: (after ++ [head])).IsChain links.Linked := by
    simpa using ring.chain
  have joined := (List.isChain_append.mp chain).2.2 _
    (List.getLast?_eq_some_getLast (List.cons_ne_nil head before)) node rfl
  exact ring.next_ne_self member (by rw [← joined.2, same] at joined; exact joined.1)

end Ring

/-! ### Insertion and removal -/

variable [DecidableEq ι]

def setNext (links : Links ι) (node target : ι) : Links ι :=
  { links with next := Function.update links.next node target }

def setPrev (links : Links ι) (node target : ι) : Links ι :=
  { links with prev := Function.update links.prev node target }

/-- Insert a node just before the head of a ring, in four stores. -/
def append (links : Links ι) (head node : ι) : Links ι :=
  let own := (links.setNext node head).setPrev node (links.prev head)
  let before := own.setNext (own.prev node) node
  before.setPrev (before.next node) node

/-- Take a node out of its ring; its own pointers stay as they are. -/
def remove (links : Links ι) (node : ι) : Links ι :=
  let after := links.setPrev (links.next node) (links.prev node)
  after.setNext (links.prev node) (links.next node)

@[simp] theorem setNext_next (links : Links ι) (node target : ι) :
    (links.setNext node target).next = Function.update links.next node target := rfl

@[simp] theorem setNext_prev (links : Links ι) (node target : ι) :
    (links.setNext node target).prev = links.prev := rfl

@[simp] theorem setPrev_next (links : Links ι) (node target : ι) :
    (links.setPrev node target).next = links.next := rfl

@[simp] theorem setPrev_prev (links : Links ι) (node target : ι) :
    (links.setPrev node target).prev = Function.update links.prev node target := rfl

theorem append_next (links : Links ι) (head node other : ι) :
    (links.append head node).next other =
      if other = links.prev head then node else if other = node then head
      else links.next other := by
  simp only [append, setNext_next, setPrev_next, setPrev_prev, Function.update_self]
  by_cases last : other = links.prev head
  · rw [if_pos last, last, Function.update_self]
  · rw [if_neg last, Function.update_of_ne last, Function.update_apply]

theorem append_prev (apart : links.prev head ≠ node) (other : ι) :
    (links.append head node).prev other =
      if other = head then node else if other = node then links.prev head
      else links.prev other := by
  have target : (Function.update (Function.update links.next node head) (links.prev head) node) node
      = head := by
    rw [Function.update_of_ne apart.symm, Function.update_self]
  simp only [append, setNext_next, setNext_prev, setPrev_next, setPrev_prev, Function.update_self,
    target]
  by_cases first : other = head
  · rw [if_pos first, first, Function.update_self]
  · rw [if_neg first, Function.update_of_ne first, Function.update_apply]

theorem remove_next (links : Links ι) (node other : ι) :
    (links.remove node).next other =
      if other = links.prev node then links.next node else links.next other := by
  simp only [remove, setNext_next, setPrev_next, Function.update_apply]

theorem remove_prev (links : Links ι) (node other : ι) :
    (links.remove node).prev other =
      if other = links.next node then links.prev node else links.prev other := by
  simp only [remove, setNext_prev, setPrev_prev, Function.update_apply]

/-- A node that is alone can be removed at no effect. -/
theorem remove_of_alone (next : links.next node = node) (prev : links.prev node = node) :
    links.remove node = links := by
  have nextSame : (links.remove node).next = links.next := by
    funext other
    rw [remove_next, next, prev]
    split
    · rename_i same
      rw [same, next]
    · rfl
  have prevSame : (links.remove node).prev = links.prev := by
    funext other
    rw [remove_prev, next, prev]
    split
    · rename_i same
      rw [same, prev]
    · rfl
  cases removed : links.remove node
  rw [removed] at nextSame prevSame
  cases links
  exact congrArg₂ Links.mk nextSame prevSame

/-- An insertion adds the node at the end. -/
theorem Ring.append (ring : Ring links head members) (fresh : node ∉ head :: members) :
    Ring (links.append head node) head (members ++ [node]) := by
  have different : node ≠ head := fun same => fresh (same ▸ List.mem_cons_self)
  have notMember : node ∉ members := fun member => fresh (List.mem_cons_of_mem _ member)
  have apart : links.prev head ≠ node := fun same => fresh (same ▸ ring.prev_head_mem)
  have inner : (head :: members).IsChain links.Linked := (List.isChain_append.mp ring.cut).1
  have lastNext : links.next (links.prev head) = head := by
    have joined := (List.isChain_append.mp ring.cut).2.2 _
      (List.getLast?_eq_some_getLast (List.cons_ne_nil head members)) head rfl
    rw [joined.2, joined.1]
  refine ⟨?_, ?_⟩
  · rw [← List.cons_append, List.nodup_append]
    refine ⟨ring.nodup, List.nodup_singleton _, fun other member single isNode same => ?_⟩
    rw [same, List.mem_singleton.mp isNode] at member
    exact fresh member
  · have kept : (head :: members).IsChain (links.append head node).Linked := by
      refine inner.imp_of_mem_tail_imp fun first second firstIn secondIn linked => ?_
      have secondMember : second ∈ members := secondIn
      refine ⟨?_, ?_⟩
      · rw [append_next]
        split
        · rename_i last
          have isHead : second = head := by rw [← linked.1, last, lastNext]
          exact absurd (isHead ▸ secondMember) ring.head_notMem
        · rw [if_neg (ne_of_mem_of_not_mem firstIn fresh)]
          exact linked.1
      · rw [append_prev apart, if_neg (ne_of_mem_of_not_mem secondMember ring.head_notMem),
          if_neg (ne_of_mem_of_not_mem secondMember notMember)]
        exact linked.2
    have split : head :: ((members ++ [node]) ++ [head]) = (head :: members) ++ [node, head] := by
      simp
    rw [split, List.isChain_append]
    refine ⟨kept, List.isChain_cons_cons.mpr ⟨⟨?_, ?_⟩, List.isChain_singleton _⟩, ?_⟩
    · rw [append_next, if_neg apart.symm, if_pos rfl]
    · rw [append_prev apart, if_pos rfl]
    · intro last lastIs second secondIs
      rw [List.getLast?_eq_some_getLast (List.cons_ne_nil head members), Option.mem_some_iff,
        ← ring.ends.2] at lastIs
      rw [List.head?_cons, Option.mem_some_iff] at secondIs
      rw [← lastIs, ← secondIs]
      refine ⟨?_, ?_⟩
      · rw [append_next, if_pos rfl]
      · rw [append_prev apart, if_neg different, if_pos rfl]

/-- A removal takes the member out and keeps the order of the others. -/
theorem Ring.remove (ring : Ring links head members) (member : node ∈ members) :
    Ring (links.remove node) head (members.erase node) := by
  obtain ⟨before, after, rfl⟩ := List.append_of_mem member
  have nodup := ring.members_nodup
  have notBefore : node ∉ before := fun inBefore =>
    (List.nodup_append.mp nodup).2.2 node inBefore node List.mem_cons_self rfl
  have notAfter : node ∉ after :=
    (List.nodup_cons.mp (List.nodup_append.mp nodup).2.1).1
  have notHead : node ≠ head := fun same => ring.head_notMem (same ▸ member)
  have erased : (before ++ node :: after).erase node = before ++ after := by
    rw [List.erase_append_right _ notBefore, List.erase_cons_head]
  rw [erased]
  have chain : ((head :: before) ++ node :: (after ++ [head])).IsChain links.Linked := by
    simpa using ring.chain
  have kept : (head :: (before ++ after)).Nodup :=
    ring.nodup.sublist (((List.sublist_cons_self node after).append_left before).cons_cons head)
  obtain ⟨front, back, joined⟩ := List.isChain_append.mp chain
  obtain ⟨afterNode, back⟩ := List.isChain_cons.mp back
  set last := (head :: before).getLast (List.cons_ne_nil head before) with lastEq
  have lastIs : last ∈ (head :: before).getLast? := List.getLast?_eq_some_getLast _
  have linkedLast := joined last lastIs node rfl
  have nextNode : links.prev (links.next node) = node := by
    cases rest : after ++ [head] with
    | nil => simp at rest
    | cons next _ =>
      have linkedNext := afterNode next (by rw [rest]; rfl)
      rw [linkedNext.1, linkedNext.2]
  have others : ∀ first second, first ≠ node → second ≠ node → links.Linked first second →
      (links.remove node).Linked first second := by
    intro first second firstNot secondNot linked
    refine ⟨?_, ?_⟩
    · rw [remove_next, if_neg fun isLast => secondNot ?_]
      · exact linked.1
      · rw [← linked.1, isLast, linkedLast.2, linkedLast.1]
    · rw [remove_prev, if_neg fun isNext => firstNot ?_]
      · exact linked.2
      · rw [← linked.2, isNext, nextNode]
  refine ⟨kept, ?_⟩
  have split : head :: ((before ++ after) ++ [head]) = (head :: before) ++ (after ++ [head]) := by
    simp
  rw [split, List.isChain_append]
  have notFront : node ∉ head :: before := fun inFront =>
    (List.mem_cons.mp inFront).elim notHead notBefore
  have notBack : node ∉ after ++ [head] := by
    rw [List.mem_append, List.mem_singleton]
    exact not_or.mpr ⟨notAfter, notHead⟩
  refine ⟨front.imp_of_mem_imp fun first second firstIn secondIn =>
      others first second (ne_of_mem_of_not_mem firstIn notFront)
        (ne_of_mem_of_not_mem secondIn notFront),
    back.imp_of_mem_imp fun first second firstIn secondIn =>
      others first second (ne_of_mem_of_not_mem firstIn notBack)
        (ne_of_mem_of_not_mem secondIn notBack), ?_⟩
  intro first firstIs next nextIs
  rw [← Option.mem_unique lastIs firstIs, ← linkedLast.2, ← (afterNode next nextIs).1]
  refine ⟨?_, ?_⟩
  · rw [remove_next, if_pos rfl]
  · rw [remove_prev, if_pos rfl]

/-- A removal changes no successor outside the ring. -/
theorem Ring.remove_next_outside (ring : Ring links head members) (member : node ∈ members)
    {place : ι} (outside : place ∉ head :: members) :
    (links.remove node).next place = links.next place := by
  rw [remove_next, if_neg (ne_of_mem_of_not_mem (ring.prev_mem member) outside).symm]

/-- An insertion changes no successor outside the ring but that of the new node. -/
theorem Ring.append_next_outside (ring : Ring links head members) {place : ι}
    (outside : place ∉ head :: members) (different : place ≠ node) :
    (links.append head node).next place = links.next place := by
  rw [append_next, if_neg (ne_of_mem_of_not_mem ring.prev_head_mem outside).symm, if_neg different]

/-! ### Two rings -/

variable {other : ι} {others : List ι}

/-- A removal leaves another ring alone. -/
theorem Ring.remove_frame (ring : Ring links head members) (member : node ∈ members)
    (second : Ring links other others) (apart : (head :: members).Disjoint (other :: others)) :
    Ring (links.remove node) other others := by
  refine second.frame (fun place inSecond => ?_) fun place inSecond => ?_
  · rw [remove_next, if_neg (ne_of_mem_of_not_mem inSecond (apart (ring.prev_mem member)))]
  · rw [remove_prev, if_neg (ne_of_mem_of_not_mem inSecond (apart (ring.next_mem member)))]

/-- An insertion leaves another ring alone. -/
theorem Ring.append_frame (ring : Ring links head members) (fresh : node ∉ head :: members)
    (second : Ring links other others) (outside : node ∉ other :: others)
    (apart : (head :: members).Disjoint (other :: others)) :
    Ring (links.append head node) other others := by
  have away : links.prev head ≠ node := ne_of_mem_of_not_mem ring.prev_head_mem fresh
  refine second.frame (fun place inSecond => ?_) fun place inSecond => ?_
  · rw [append_next, if_neg (ne_of_mem_of_not_mem inSecond (apart ring.prev_head_mem)),
      if_neg (ne_of_mem_of_not_mem inSecond outside)]
  · rw [append_prev away, if_neg (ne_of_mem_of_not_mem inSecond (apart List.mem_cons_self)),
      if_neg (ne_of_mem_of_not_mem inSecond outside)]

/-- Moving a member to the end of another ring. -/
theorem Ring.move (ring : Ring links head members) (member : node ∈ members)
    (second : Ring links other others) (apart : (head :: members).Disjoint (other :: others)) :
    Ring ((links.remove node).append other node) head (members.erase node) ∧
      Ring ((links.remove node).append other node) other (others ++ [node]) := by
  have removed := ring.remove member
  have kept := ring.remove_frame member second apart
  have outside : node ∉ other :: others := apart (List.mem_cons_of_mem _ member)
  have fewer : (head :: members.erase node).Subset (head :: members) :=
    List.cons_subset_cons head (List.erase_subset)
  refine ⟨kept.append_frame outside removed ?_ ?_, kept.append outside⟩
  · intro inRing
    rcases List.mem_cons.mp inRing with isHead | inErase
    · exact ring.head_notMem (isHead ▸ member)
    · exact (ring.members_nodup.mem_erase_iff.mp inErase).1 rfl
  · exact fun place inSecond inFirst => apart (fewer inFirst) inSecond

theorem Ring.move_next_outside (ring : Ring links head members) (member : node ∈ members)
    (second : Ring links other others) (apart : (head :: members).Disjoint (other :: others))
    {place : ι} (outFirst : place ∉ head :: members) (outSecond : place ∉ other :: others) :
    ((links.remove node).append other node).next place = links.next place := by
  have different : place ≠ node := fun same => outFirst (same ▸ List.mem_cons_of_mem _ member)
  rw [(ring.remove_frame member second apart).append_next_outside outSecond different,
    ring.remove_next_outside member outFirst]

end Links

end LevelDb.Lib
