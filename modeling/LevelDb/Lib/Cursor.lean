/-
This file develops a cursor over an ordered map. The map is a list of bindings with increasing
keys, and a cursor stands on a binding or on none. Its moves are described by the keys alone: the
least key at or after a target, the least key after the current one, the greatest key before it.
An iterator is an object that answers the same calls; it is a cursor over a map when every call
takes it where the cursor goes.
-/

import Mathlib.Tactic

namespace LevelDb.Lib

variable {Key Value : Type} [LinearOrder Key]

/-- The calls a cursor answers. -/
inductive CursorCall (Key : Type)
  | seek (target : Key)
  | seekToFirst
  | seekToLast
  | next
  | prev
  deriving DecidableEq, Repr

/-- One call on a cursor. A cursor that stands on no binding refuses to move on. -/
def cursorStep (map : List (Key × Value)) (current : Option (Key × Value)) :
    CursorCall Key → Option (Option (Key × Value))
  | .seek target => some (map.find? fun binding => target ≤ binding.1)
  | .seekToFirst => some map.head?
  | .seekToLast => some map.getLast?
  | .next => current.map fun binding => map.find? fun other => binding.1 < other.1
  | .prev => current.map fun binding => map.reverse.find? fun other => other.1 < binding.1

theorem cursorStep_nil {call : CursorCall Key} {next : Option (Key × Value)}
    (answered : cursorStep [] none call = some next) : next = none := by
  cases call with
  | seek target => exact (Option.some.inj answered).symm
  | seekToFirst => exact (Option.some.inj answered).symm
  | seekToLast => exact (Option.some.inj answered).symm
  | next => cases answered
  | prev => cases answered

/-- Two searches that agree on the items of a list find the same item. -/
theorem find?_congr_of_mem {Item : Type} {items : List Item} {first second : Item → Bool}
    (agree : ∀ item ∈ items, first item = second item) : items.find? first = items.find? second := by
  induction items with
  | nil => rfl
  | cons item rest inductionHypothesis =>
    rw [List.find?_cons, List.find?_cons, agree item List.mem_cons_self,
      inductionHypothesis fun other member => agree other (List.mem_cons_of_mem _ member)]

/-- A search that accepts every item of a list finds the first one. -/
theorem find?_eq_head?_of_forall {Item : Type} {items : List Item} {condition : Item → Bool}
    (accepts : ∀ item ∈ items, condition item = true) : items.find? condition = items.head? := by
  cases items with
  | nil => rfl
  | cons item rest => exact List.find?_cons_of_pos (accepts item List.mem_cons_self)

/-! ### Iterators -/

/-- An object that answers the calls of a cursor: what a call does to its state, and the binding it
stands on. -/
structure Iterator (State Key Value : Type) where
  call : State → CursorCall Key → State
  current : State → Option (Key × Value)

/-- The states in which an iterator is a cursor over a map: it stands on a binding of the map or on
none, and every call that a cursor answers takes it to where the cursor goes. -/
structure Iterator.IsCursor {State : Type} (iterator : Iterator State Key Value)
    (isOver : State → List (Key × Value) → Prop) : Prop where
  mem : ∀ state map, isOver state map → ∀ binding ∈ iterator.current state, binding ∈ map
  answers : ∀ state map call next, isOver state map →
    cursorStep map (iterator.current state) call = some next →
      isOver (iterator.call state call) map ∧ iterator.current (iterator.call state call) = next

/-- The cursor itself, with its map in its state. -/
def listIterator : Iterator (List (Key × Value) × Option (Key × Value)) Key Value where
  call := fun state call => (state.1, (cursorStep state.1 state.2 call).getD none)
  current := fun state => state.2

theorem cursorStep_mem {map : List (Key × Value)} {current next : Option (Key × Value)}
    {call : CursorCall Key} (answered : cursorStep map current call = some next) :
    ∀ binding ∈ next, binding ∈ map := by
  intro binding isNext
  cases call with
  | seek target =>
    obtain rfl := Option.some.inj answered
    exact List.mem_of_find?_eq_some isNext
  | seekToFirst =>
    obtain rfl := Option.some.inj answered
    exact List.mem_of_mem_head? isNext
  | seekToLast =>
    obtain rfl := Option.some.inj answered
    exact List.mem_of_getLast? isNext
  | next =>
    obtain ⟨_, _, rfl⟩ := Option.map_eq_some_iff.mp answered
    exact List.mem_of_find?_eq_some isNext
  | prev =>
    obtain ⟨_, _, rfl⟩ := Option.map_eq_some_iff.mp answered
    exact List.mem_reverse.mp (List.mem_of_find?_eq_some isNext)

theorem listIterator_isCursor : Iterator.IsCursor (@listIterator Key Value _)
    fun state map => state.1 = map ∧ ∀ binding ∈ state.2, binding ∈ map where
  mem := fun _ _ isOver => isOver.2
  answers := by
    rintro ⟨map, current⟩ _ call next ⟨rfl, _⟩ answered
    refine ⟨⟨rfl, ?_⟩, ?_⟩
    · show ∀ binding ∈ (cursorStep map current call).getD none, binding ∈ map
      rw [show cursorStep map current call = some next from answered]
      exact cursorStep_mem answered
    · show (cursorStep map current call).getD none = next
      rw [show cursorStep map current call = some next from answered]
      rfl

end LevelDb.Lib
