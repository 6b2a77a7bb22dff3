/-
This file models the skip list behind a memtable: nodes with one link a level, a search that walks
along a level as far as it can and then drops to the next, and a single writer whose `Insert` is
taken apart into its stores. Readers take no lock, so a reader may run between any two of them.
-/

import LevelDb.Lib.Layers
import LevelDb.Lib.Run

namespace LevelDb

variable {κ : Type}

/-- The most links a node can have. -/
def kMaxHeight : Nat := 12

/-- A skip list. Nodes are numbered as they are allocated; links that were never stored hold
whatever the memory held. -/
structure SkipList (κ : Type) where
  key : Nat → κ
  next : Nat → Nat → Option Nat
  maxHeight : Nat
  nodes : Nat

namespace SkipList

/-- The node every chain starts from. -/
def head : Nat := 0

/-- A new skip list; any key will do for the head. -/
def create (anyKey : κ) : SkipList κ where
  key := fun _ => anyKey
  next := fun _ _ => none
  maxHeight := 1
  nodes := 1

/-- Store the link of a node at one level. -/
def setNext (list : SkipList κ) (n level : Nat) (x : Option Nat) : SkipList κ :=
  { list with next := Function.update list.next n (Function.update (list.next n) level x) }

@[simp]
theorem setNext_key (list : SkipList κ) (n level : Nat) (x : Option Nat) :
    (list.setNext n level x).key = list.key := rfl

@[simp]
theorem setNext_maxHeight (list : SkipList κ) (n level : Nat) (x : Option Nat) :
    (list.setNext n level x).maxHeight = list.maxHeight := rfl

@[simp]
theorem setNext_nodes (list : SkipList κ) (n level : Nat) (x : Option Nat) :
    (list.setNext n level x).nodes = list.nodes := rfl

theorem setNext_self (list : SkipList κ) (n level : Nat) (x : Option Nat) :
    (list.setNext n level x).next n level = x := by
  show Function.update list.next n (Function.update (list.next n) level x) n level = x
  rw [Function.update_self, Function.update_self]

theorem setNext_of_ne (list : SkipList κ) {n level : Nat} (x : Option Nat) {other lower : Nat}
    (distinct : other ≠ n ∨ lower ≠ level) :
    (list.setNext n level x).next other lower = list.next other lower := by
  show Function.update list.next n (Function.update (list.next n) level x) other lower = _
  obtain rfl | otherNode := eq_or_ne other n
  · rw [Function.update_self, Function.update_of_ne (distinct.resolve_left (not_not.mpr rfl))]
  · rw [Function.update_of_ne otherNode]

/-! ### Searches -/

variable [LinearOrder κ]

/-- Walk along a level while the next node is accepted, then drop to the level below; `prev` collects
the node each level was left at. The loop runs on `fuel`, one unit a round. -/
def descend (list : SkipList κ) (goesOn : Nat → Bool) :
    Nat → Nat → Nat → (Nat → Nat) → Option (Nat × (Nat → Nat))
  | 0, _, _, _ => none
  | fuel + 1, x, level, prev =>
    match (list.next x level).filter goesOn with
    | some next => descend list goesOn fuel next level prev
    | none =>
      let prev := Function.update prev level x
      match level with
      | 0 => some (x, prev)
      | level + 1 => descend list goesOn fuel x level prev

/-- More rounds than any search takes. -/
def rounds (list : SkipList κ) : Nat := list.nodes + list.maxHeight

/-- Whether a key is greater than the key of a node. -/
def keyIsAfterNode (list : SkipList κ) (key : κ) (n : Nat) : Bool := decide (list.key n < key)

/-- The earliest node at or after a key, and the node before it on every level in use. -/
def findGreaterOrEqual (list : SkipList κ) (key : κ) (prev : Nat → Nat) :
    Option (Option Nat × (Nat → Nat)) :=
  (list.descend (list.keyIsAfterNode key) list.rounds head (list.maxHeight - 1) prev).map
    fun found => (list.next found.1 0, found.2)

/-- The latest node before a key, or the head. -/
def findLessThan (list : SkipList κ) (key : κ) : Option Nat :=
  (list.descend (fun n => decide (list.key n < key)) list.rounds head (list.maxHeight - 1)
    fun _ => head).map Prod.fst

/-- The last node, or the head. -/
def findLast (list : SkipList κ) : Option Nat :=
  (list.descend (fun _ => true) list.rounds head (list.maxHeight - 1) fun _ => head).map Prod.fst

/-- Whether an equal key is in the list. -/
def contains (list : SkipList κ) (key : κ) : Option Bool :=
  (list.findGreaterOrEqual key fun _ => head).map fun found =>
    found.1.any fun x => decide (list.key x = key)

/-- One call on an iterator that stands on a node or on none. The calls that move from the current
node require that there is one. -/
def iterate (list : SkipList κ) (node : Option Nat) : Lib.CursorCall κ → Option (Option Nat)
  | .seek target => (list.findGreaterOrEqual target fun _ => head).map Prod.fst
  | .seekToFirst => some (list.next head 0)
  | .seekToLast => list.findLast.map fun x => if x = head then none else some x
  | .next => node.map fun n => list.next n 0
  | .prev => node.bind fun n =>
      (list.findLessThan (list.key n)).map fun x => if x = head then none else some x

/-! ### The writer -/

/-- Where an `Insert` stands: the store it performs next. -/
inductive Point
  | raise
  | allocate
  | link (x level : Nat)
  | publish (x level : Nat)
  deriving DecidableEq, Repr

/-- The levels below the one a point is at. -/
def Point.level : Point → Nat
  | .raise => 0
  | .allocate => 0
  | .link _ level => level
  | .publish _ level => level

/-- An `Insert` under way: its key and height, the nodes its search left the levels at, what the
memory of the new node holds, and the next store. -/
structure Insertion (κ : Type) where
  key : κ
  height : Nat
  prev : Nat → Nat
  memory : Nat → Option Nat
  point : Point

/-- The level-0 link to the new node has been stored. -/
def Insertion.linked (insertion : Insertion κ) : Bool := decide (0 < insertion.point.level)

/-- A skip list with its writer, and the keys of the inserts that have returned. -/
structure Writer (κ : Type) where
  list : SkipList κ
  inserted : List κ
  insertion : Option (Insertion κ)

namespace Writer

/-- A writer on a new skip list. -/
def create (anyKey : κ) : Writer κ where
  list := SkipList.create anyKey
  inserted := []
  insertion := none

/-- What a writer does: begin an `Insert` with a height of its choice, on a stack and a heap with
any contents, or perform its next store. -/
inductive Action (κ : Type)
  | insert (key : κ) (height : Nat) (stack : Nat → Nat) (memory : Nat → Option Nat)
  | store

/-- Search for the place of a key and choose a height. An equal key in the list fails the
assertion. -/
def begin (writer : Writer κ) (key : κ) (height : Nat) (stack : Nat → Nat)
    (memory : Nat → Option Nat) : Option (Writer κ) :=
  (writer.list.findGreaterOrEqual key stack).bind fun found =>
    if found.1.any fun x => decide (writer.list.key x = key) then none
    else
      let maxHeight := writer.list.maxHeight
      let raises := decide (maxHeight < height)
      let prev := fun level =>
        if raises ∧ maxHeight ≤ level ∧ level < height then head else found.2 level
      some { writer with
        insertion := some {
          key := key, height := height, prev := prev, memory := memory
          point := if raises then .raise else .allocate } }

/-- Perform the next store of an `Insert`. -/
def store (writer : Writer κ) (insertion : Insertion κ) : Writer κ :=
  let list := writer.list
  match insertion.point with
  | .raise =>
    { writer with
      list := { list with maxHeight := insertion.height }
      insertion := some { insertion with point := .allocate } }
  | .allocate =>
    let x := list.nodes
    { writer with
      list := { list with
        key := Function.update list.key x insertion.key
        next := Function.update list.next x insertion.memory
        nodes := x + 1 }
      insertion := some { insertion with point := .link x 0 } }
  | .link x level =>
    { writer with
      list := list.setNext x level (list.next (insertion.prev level) level)
      insertion := some { insertion with point := .publish x level } }
  | .publish x level =>
    let list := list.setNext (insertion.prev level) level (some x)
    if level + 1 < insertion.height then
      { writer with
        list := list
        insertion := some { insertion with point := .link x (level + 1) } }
    else
      { list := list, inserted := writer.inserted ++ [insertion.key], insertion := none }

/-- One step of the writer. -/
def step (writer : Writer κ) : Action κ → Option (Writer κ)
  | .insert key height stack memory =>
    if writer.insertion.isSome then none else writer.begin key height stack memory
  | .store => writer.insertion.map writer.store

/-- A key is inserted once, with a height the random choice can give. -/
def Fresh (writer : Writer κ) : Action κ → Prop
  | .insert key height _ _ => key ∉ writer.inserted ∧ 1 ≤ height ∧ height ≤ kMaxHeight
  | .store => True

instance (writer : Writer κ) : ∀ action : Action κ, Decidable (writer.Fresh action)
  | .insert key height _ _ =>
    inferInstanceAs (Decidable (key ∉ writer.inserted ∧ 1 ≤ height ∧ height ≤ kMaxHeight))
  | .store => inferInstanceAs (Decidable True)

/-- The keys inserted before and, once its level-0 link is stored, the new one. -/
def linkedKeys (writer : Writer κ) : List κ :=
  writer.inserted ++ ((writer.insertion.filter Insertion.linked).map (·.key)).toList

end Writer

end SkipList

end LevelDb
