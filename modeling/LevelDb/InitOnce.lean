/-
This file models one-time initialisation in the Windows port (`port/port_win.h`) and its one user,
`BytewiseComparator` of `util/comparator`. `InitOnce` does not look at its `OnceType`: every call
runs the initializer, which makes a new comparator. Any number of calls take their steps in any
order. The initializer runs once exactly as long as there is one call, and a comparator returned
earlier is never returned by a later call, so that `ChangeOptions` refuses it.
-/

import LevelDb.Lib.Run
import LevelDb.Sst.TableBuilder

namespace LevelDb.InitOnce

/-! ### The calls and their steps -/

/-- Where a call of `BytewiseComparator` stands: before it, in `InitModule` before and after its
`new`, behind `InitOnce`, and back with the pointer it returned. -/
inductive Stage
  | outside
  | initModule
  | assign (object : Nat)
  | load
  | returned (object : Nat)
  deriving DecidableEq, Repr

/-- `LEVELDB_ONCE_INIT`. -/
def kOnceInit : Int := 0

/-- `InitOnce` with the initializer `InitModule`: where it takes its call. -/
def initOnce (_ : Int) : Stage := .initModule

/-- The static variables `once` and `bytewise`, the number of comparators made so far, each of
which is a pointer other than null, and the calls. `runs` is not part of the code: it counts the
runs of the initializer. -/
structure State where
  once : Int
  bytewise : Nat
  made : Nat
  call : Nat → Stage
  runs : Nat

def initial : State :=
  { once := kOnceInit
    bytewise := 0
    made := 0
    call := fun _ => .outside
    runs := 0 }

def State.goTo (state : State) (id : Nat) (stage : Stage) : State :=
  { state with call := Function.update state.call id stage }

/-- `BytewiseComparator` is called, or a call takes its next step. -/
inductive Action
  | call (id : Nat)
  | advance (id : Nat)
  deriving DecidableEq, Repr

def step (state : State) : Action → Option State
  | .call id =>
    if state.call id = .outside then
      some ({ state with runs := state.runs + 1 }.goTo id (initOnce state.once))
    else none
  | .advance id =>
    match state.call id with
    | .initModule =>
      some ({ state with made := state.made + 1 }.goTo id (.assign (state.made + 1)))
    | .assign object => some ({ state with bytewise := object }.goTo id .load)
    | .load => some (state.goTo id (.returned state.bytewise))
    | _ => none

/-- The state after a list of steps, in any order. -/
def run (actions : List Action) : Option State := Lib.run step (fun _ _ => True) initial actions

def Action.isCall : Action → Bool
  | .call _ => true
  | .advance _ => false

@[simp] theorem State.goTo_call_self (state : State) (id : Nat) (stage : Stage) :
    (state.goTo id stage).call id = stage := by
  simp only [State.goTo, Function.update_self]

theorem State.goTo_call_of_ne (state : State) {id other : Nat} (different : other ≠ id)
    (stage : Stage) : (state.goTo id stage).call other = state.call other := by
  simp only [State.goTo, Function.update_of_ne different]

/-- Everything a step can do. -/
theorem step_cases {state state' : State} {action : Action}
    (taken : step state action = some state') :
    (∃ id, action = .call id ∧ state.call id = .outside ∧
      state' = { state with runs := state.runs + 1 }.goTo id .initModule) ∨
    ∃ id, action = .advance id ∧
      (state.call id = .initModule ∧
        state' = { state with made := state.made + 1 }.goTo id (.assign (state.made + 1)) ∨
      (∃ object, state.call id = .assign object ∧
        state' = { state with bytewise := object }.goTo id .load) ∨
      state.call id = .load ∧ state' = state.goTo id (.returned state.bytewise)) := by
  cases action with
  | call id =>
    obtain ⟨outside, rfl⟩ := Lib.of_guard taken
    exact .inl ⟨id, rfl, outside, rfl⟩
  | advance id =>
    refine .inr ⟨id, rfl, ?_⟩
    simp only [step] at taken
    split at taken
    · next stage =>
      cases taken
      exact .inl ⟨stage, rfl⟩
    · next object stage =>
      cases taken
      exact .inr (.inl ⟨object, stage, rfl⟩)
    · next stage =>
      cases taken
      exact .inr (.inr ⟨stage, rfl⟩)
    · cases taken

/-! ### The runs of the initializer -/

/-- As many calls have been made as the initializer has run. -/
def Counted (state : State) : Prop :=
  ∃ calls : Finset Nat, calls.card = state.runs ∧ ∀ id, id ∈ calls ↔ state.call id ≠ .outside

theorem counted_initial : Counted initial :=
  ⟨∅, rfl, fun id => iff_of_false (Finset.notMem_empty id) fun called => called rfl⟩

variable {state : State}

/-- A step of a call keeps it among the calls that have been made. -/
theorem Counted.goTo (counted : Counted state) {id : Nat} {stage : Stage}
    (before : state.call id ≠ .outside) (after : stage ≠ .outside) :
    Counted (state.goTo id stage) := by
  obtain ⟨calls, card, members⟩ := counted
  refine ⟨calls, card, fun other => ?_⟩
  obtain rfl | different := eq_or_ne other id
  · rw [State.goTo_call_self]
    exact iff_of_true ((members other).mpr before) after
  · rw [State.goTo_call_of_ne state different]
    exact members other

theorem Counted.step {state state' : State} {action : Action} (counted : Counted state)
    (taken : step state action = some state') : Counted state' := by
  obtain ⟨id, rfl, outside, rfl⟩ | ⟨id, rfl, ⟨stage, rfl⟩ | ⟨object, stage, rfl⟩ | ⟨stage, rfl⟩⟩ :=
    step_cases taken
  · obtain ⟨calls, card, members⟩ := counted
    have fresh : id ∉ calls := fun member => (members id).mp member outside
    refine ⟨insert id calls, by rw [Finset.card_insert_of_notMem fresh, card]; rfl, fun other => ?_⟩
    rw [Finset.mem_insert]
    obtain rfl | different := eq_or_ne other id
    · rw [State.goTo_call_self]
      exact iff_of_true (.inl rfl) (by decide)
    · rw [State.goTo_call_of_ne _ different, or_iff_right different]
      exact members other
  · have making : Counted { state with made := state.made + 1 } := counted
    exact making.goTo (by rw [stage]; decide) Stage.noConfusion
  · have assigning : Counted { state with bytewise := object } := counted
    exact assigning.goTo (by rw [stage]; exact Stage.noConfusion) (by decide)
  · exact counted.goTo (by rw [stage]; decide) Stage.noConfusion

variable {actions : List Action}

theorem Counted.run (ran : run actions = some state) :
    Counted state :=
  Lib.Reachable.invariant counted_initial (fun _ _ _ counted _ taken => counted.step taken)
    (Lib.Reachable.run .refl ran)

theorem step_runs {state state' : State} {action : Action}
    (taken : step state action = some state') :
    state'.runs = state.runs + if action.isCall then 1 else 0 := by
  obtain ⟨id, rfl, -, rfl⟩ | ⟨id, rfl, ⟨-, rfl⟩ | ⟨object, -, rfl⟩ | ⟨-, rfl⟩⟩ :=
    step_cases taken <;> rfl

/-- The initializer runs once for every call. -/
theorem run_runs {state state' : State}
    (ran : Lib.run step (fun _ _ => True) state actions = some state') :
    state'.runs = state.runs + actions.countP Action.isCall := by
  induction actions generalizing state with
  | nil =>
    cases ran
    rfl
  | cons action rest inductionHypothesis =>
    rw [Lib.run, if_pos trivial] at ran
    obtain ⟨middle, taken, ending⟩ := Option.bind_eq_some_iff.mp ran
    rw [inductionHypothesis ending, step_runs taken, List.countP_cons]
    omega

/-! ### One comparator for all calls -/

/-- The call is behind `InitOnce`. -/
def Stage.initialised : Stage → Bool
  | .load | .returned _ => true
  | _ => false

/-- What one-time initialisation is to give: the initializer runs once, once a call is behind it,
all calls return the same comparator, and a builder with one accepts options with the other. -/
structure InitialisedOnce (state : State) : Prop where
  atMostOnce : state.runs ≤ 1
  once : ∀ id, (state.call id).initialised = true → state.runs = 1
  same : ∀ id other object object', state.call id = .returned object →
    state.call other = .returned object' → object = object'
  accepts : ∀ id other object object', state.call id = .returned object →
    state.call other = .returned object' → ∀ (builder : Sst.TableBuilder) (options : Sst.Options),
      builder.options.comparator = object → options.comparator = object' →
        (builder.changeOptions options).1 = none

theorem changeOptions_accepts_iff (builder : Sst.TableBuilder) (options : Sst.Options) :
    (builder.changeOptions options).1 = none ↔
      options.comparator = builder.options.comparator := by
  rw [Sst.TableBuilder.changeOptions]
  split
  · next different => exact iff_of_false (by simp) different
  · next same => exact iff_of_true rfl (not_not.mp same)

/-- As long as the initializer has run no more than once, it gives all of it. -/
theorem Counted.initialisedOnce (counted : Counted state)
    (atMostOnce : state.runs ≤ 1) : InitialisedOnce state := by
  obtain ⟨calls, card, members⟩ := counted
  have one : ∀ {id other object object'}, state.call id = .returned object →
      state.call other = .returned object' → object = object' := by
    intro id other object object' isReturned isReturned'
    have inside : id ∈ calls := (members id).mpr (by rw [isReturned]; exact Stage.noConfusion)
    have inside' : other ∈ calls :=
      (members other).mpr (by rw [isReturned']; exact Stage.noConfusion)
    obtain rfl := Finset.card_le_one.mp (card.trans_le atMostOnce) id inside other inside'
    exact Stage.returned.inj (isReturned.symm.trans isReturned')
  refine ⟨atMostOnce, fun id behind => ?_, fun id other object object' => one, ?_⟩
  · have inside : id ∈ calls := (members id).mpr fun outside => by
      rw [outside] at behind
      cases behind
    have positive := Finset.card_pos.mpr ⟨id, inside⟩
    omega
  · intro id other object object' isReturned isReturned' builder options isObject isObject'
    rw [changeOptions_accepts_iff, isObject, isObject']
    exact (one isReturned isReturned').symm

/-- In every state of a run there has been one initialisation for all calls, if and only if no
more than one call is made. -/
theorem initialisedOnce_iff {actions : List Action} {state : State}
    (ran : run actions = some state) :
    (∀ front, front <+: actions → ∀ reached, run front = some reached → InitialisedOnce reached) ↔
      actions.countP Action.isCall ≤ 1 := by
  have runs : ∀ {front reached}, run front = some reached →
      reached.runs = front.countP Action.isCall := by
    intro front reached ranFront
    rw [run_runs ranFront]
    exact Nat.zero_add _
  constructor
  · intro holds
    rw [← runs ran]
    exact (holds actions (List.prefix_refl actions) state ran).atMostOnce
  · intro atMostOne front isFront reached ranFront
    refine (Counted.run ranFront).initialisedOnce ?_
    rw [runs ranFront]
    exact (isFront.sublist.countP_le).trans atMostOne

/-- One call, which returns. -/
theorem initialisedOnce_single :
    ∃ state, run [.call 0, .advance 0, .advance 0, .advance 0] = some state ∧
      state.call 0 = .returned 1 ∧ InitialisedOnce state := by
  refine ⟨_, rfl, rfl, ?_⟩
  exact (@initialisedOnce_iff [.call 0, .advance 0, .advance 0, .advance 0] _ rfl).mpr (by decide)
    _ (List.prefix_refl _) _ rfl

/-- Two calls, one after the other, return two comparators, and a builder with the first refuses
options with the second. -/
theorem initialised_twice :
    ∃ actions state, run actions = some state ∧ state.runs = 2 ∧ state.call 0 = .returned 1 ∧
      state.call 1 = .returned 2 ∧ ¬ InitialisedOnce state ∧
      ∀ (builder : Sst.TableBuilder) (options : Sst.Options), builder.options.comparator = 1 →
        options.comparator = 2 → (builder.changeOptions options).1 =
          some "changing comparator while building table" := by
  refine ⟨[.call 0, .advance 0, .advance 0, .advance 0, .call 1, .advance 1, .advance 1,
    .advance 1], _, rfl, rfl, rfl, rfl, fun once => ?_, ?_⟩
  · exact absurd (once.same 0 1 1 2 rfl rfl) (by decide)
  · intro builder options isFirst isSecond
    have different : options.comparator ≠ builder.options.comparator := by
      rw [isFirst, isSecond]
      decide
    rw [Sst.TableBuilder.changeOptions, if_pos different]

/-! ### Later calls -/

/-- Comparators about to be assigned have been made, and are neither assigned nor returned nor
about to be assigned by another call. -/
structure Sound (state : State) : Prop where
  bytewise : state.bytewise ≤ state.made
  returned : ∀ id object, state.call id = .returned object → object ≤ state.made
  assigned : ∀ id object, state.call id = .assign object →
    object ≤ state.made ∧ object ≠ state.bytewise ∧
      (∀ other, state.call other = .assign object → other = id) ∧
      ∀ other, state.call other ≠ .returned object

theorem sound_initial : Sound initial where
  bytewise := le_rfl
  returned _ _ isReturned := by cases isReturned
  assigned _ _ isAssign := by cases isAssign

/-- The stage of a call after another one, or the same, has moved. -/
theorem State.goTo_call (state : State) (id other : Nat) (stage : Stage) :
    (state.goTo id stage).call other = if other = id then stage else state.call other := by
  obtain rfl | different := eq_or_ne other id
  · rw [State.goTo_call_self, if_pos rfl]
  · rw [State.goTo_call_of_ne state different, if_neg different]

/-- A call moves to a stage. A comparator it is about to assign there has to be a new one, and one
that it returns is not to be assigned by any other call. -/
theorem Sound.goTo (sound : Sound state) {id : Nat} {stage : Stage}
    (assigns : ∀ object, stage = .assign object → object ≤ state.made ∧
      object ≠ state.bytewise ∧ ∀ other, state.call other ≠ .assign object ∧
        state.call other ≠ .returned object)
    (returns : ∀ object, stage = .returned object → object ≤ state.made ∧
      ∀ other, state.call other ≠ .assign object) : Sound (state.goTo id stage) where
  bytewise := sound.bytewise
  returned other object isReturned := by
    rw [State.goTo_call] at isReturned
    split at isReturned
    · exact (returns object isReturned).1
    · exact sound.returned other object isReturned
  assigned other object isAssign := by
    rw [State.goTo_call] at isAssign
    split at isAssign
    · next isId =>
      obtain ⟨made, notCurrent, fresh⟩ := assigns object isAssign
      refine ⟨made, notCurrent, fun third isThird => ?_, fun third isThird => ?_⟩
      · rw [State.goTo_call] at isThird
        split at isThird
        · next isOther => rw [isOther, isId]
        · exact absurd isThird (fresh third).1
      · rw [State.goTo_call] at isThird
        split at isThird
        · cases isAssign.symm.trans isThird
        · exact (fresh third).2 isThird
    · obtain ⟨made, notCurrent, alone, unreturned⟩ := sound.assigned other object isAssign
      refine ⟨made, notCurrent, fun third isThird => ?_, fun third isThird => ?_⟩
      · rw [State.goTo_call] at isThird
        split at isThird
        · exact absurd isAssign ((assigns object isThird).2.2 other).1
        · exact alone third isThird
      · rw [State.goTo_call] at isThird
        split at isThird
        · exact (returns object isThird).2 other isAssign
        · exact unreturned third isThird

/-- The comparator just made is a new one. -/
theorem Sound.make (sound : Sound state) (id : Nat) :
    Sound ({ state with made := state.made + 1 }.goTo id (.assign (state.made + 1))) := by
  have later : Sound { state with made := state.made + 1 } := by
    refine ⟨sound.bytewise.trans (Nat.le_succ _), fun other object isReturned => ?_,
      fun other object isAssign => ?_⟩
    · exact (sound.returned other object isReturned).trans (Nat.le_succ _)
    · obtain ⟨made, others⟩ := sound.assigned other object isAssign
      exact ⟨made.trans (Nat.le_succ _), others⟩
  refine later.goTo (fun object isNew => ?_) (fun object isReturned => ?_)
  · obtain rfl := Stage.assign.inj isNew
    refine ⟨le_rfl, (Nat.lt_succ_of_le sound.bytewise).ne', fun other => ⟨fun isAssign => ?_,
      fun isReturned => ?_⟩⟩
    · exact Nat.not_succ_le_self _ (sound.assigned other _ isAssign).1
    · exact Nat.not_succ_le_self _ (sound.returned other _ isReturned)
  · cases isReturned

/-- Comparators still to be assigned differ from the one that has been assigned now. -/
theorem Sound.assign (sound : Sound state) {id object : Nat}
    (stage : state.call id = .assign object) :
    Sound ({ state with bytewise := object }.goTo id .load) := by
  have moved : Sound (state.goTo id .load) := sound.goTo (by simp) (by simp)
  refine ⟨(sound.assigned id object stage).1, moved.returned, fun other object' isAssign => ?_⟩
  obtain ⟨made', -, others⟩ := moved.assigned other object' isAssign
  refine ⟨made', ?_, others⟩
  rintro rfl
  rw [State.goTo_call] at isAssign
  split at isAssign
  · cases isAssign
  · next different => exact different ((sound.assigned id _ stage).2.2.1 other isAssign)

/-- What a call returns is the comparator assigned last. -/
theorem Sound.load (sound : Sound state) (id : Nat) :
    Sound (state.goTo id (.returned state.bytewise)) := by
  refine sound.goTo (fun object isAssign => ?_) (fun object isReturned => ?_)
  · cases isAssign
  · obtain rfl := Stage.returned.inj isReturned
    exact ⟨sound.bytewise, fun other isAssign => (sound.assigned other _ isAssign).2.1 rfl⟩

theorem Sound.step {state state' : State} {action : Action} (sound : Sound state)
    (taken : step state action = some state') : Sound state' := by
  obtain ⟨id, rfl, -, rfl⟩ | ⟨id, rfl, ⟨-, rfl⟩ | ⟨object, stage, rfl⟩ | ⟨-, rfl⟩⟩ :=
    step_cases taken
  · have counting : Sound { state with runs := state.runs + 1 } :=
      ⟨sound.bytewise, sound.returned, sound.assigned⟩
    exact counting.goTo (by simp) (by simp)
  · exact sound.make id
  · exact sound.assign stage
  · exact sound.load id

theorem Sound.run (ran : run actions = some state) :
    Sound state :=
  Lib.Reachable.invariant sound_initial (fun _ _ _ sound _ taken => sound.step taken)
    (Lib.Reachable.run .refl ran)

/-- The comparator is an old one: no call is about to assign it, and the call in question, once
it is behind `InitOnce`, is past it. -/
structure Past (object id : Nat) (state : State) : Prop where
  made : object ≤ state.made
  unassigned : ∀ other, state.call other ≠ .assign object
  load : state.call id = .load → state.bytewise ≠ object
  returned : state.call id ≠ .returned object

theorem Past.goTo {object id : Nat} (past : Past object id state) {mover : Nat}
    {stage : Stage} (assigns : stage ≠ .assign object)
    (loads : stage = .load → state.bytewise ≠ object)
    (returns : mover = id → stage ≠ .returned object) :
    Past object id (state.goTo mover stage) where
  made := past.made
  unassigned other isAssign := by
    rw [State.goTo_call] at isAssign
    split at isAssign
    · exact assigns isAssign
    · exact past.unassigned other isAssign
  load isLoad := by
    rw [State.goTo_call] at isLoad
    split at isLoad
    · exact loads isLoad
    · exact past.load isLoad
  returned isReturned := by
    rw [State.goTo_call] at isReturned
    split at isReturned
    · next isMover => exact returns isMover.symm isReturned
    · exact past.returned isReturned

theorem Past.step {object id : Nat} {state state' : State} {action : Action}
    (past : Past object id state) (taken : step state action = some state') :
    Past object id state' := by
  obtain ⟨mover, rfl, -, rfl⟩ | ⟨mover, rfl, ⟨-, rfl⟩ | ⟨other, stage, rfl⟩ | ⟨stage, rfl⟩⟩ :=
    step_cases taken
  · have counting : Past object id { state with runs := state.runs + 1 } :=
      ⟨past.made, past.unassigned, past.load, past.returned⟩
    exact counting.goTo (by simp) (by simp) (by simp)
  · have making : Past object id { state with made := state.made + 1 } :=
      ⟨past.made.trans (Nat.le_succ _), past.unassigned, past.load, past.returned⟩
    have made := past.made
    refine making.goTo (fun isNew => ?_) (by simp) (by simp)
    have same := Stage.assign.inj isNew
    omega
  · have different : other ≠ object := by
      rintro rfl
      exact past.unassigned mover stage
    have assigning : Past object id { state with bytewise := other } :=
      ⟨past.made, past.unassigned, fun _ => different, past.returned⟩
    exact assigning.goTo (by simp) (fun _ => different) (by simp)
  · refine past.goTo (by simp) (by simp) fun isMover isReturned => ?_
    rw [isMover] at stage
    exact past.load stage (Stage.returned.inj isReturned)

/-- A call made after another one has returned never returns the same comparator. -/
theorem later_call_returns_other {actions later : List Action} {state state' : State}
    {first second object object' : Nat} (ran : run actions = some state)
    (ranLater : Lib.run step (fun _ _ => True) state later = some state')
    (returned : state.call first = .returned object) (notYet : state.call second = .outside)
    (returnedLater : state'.call second = .returned object') : object' ≠ object := by
  have sound := Sound.run ran
  have past : Past object second state := by
    refine ⟨sound.returned first object returned, fun other isAssign => ?_, fun isLoad => ?_,
      fun isReturned => ?_⟩
    · exact (sound.assigned other object isAssign).2.2.2 first returned
    · rw [notYet] at isLoad
      cases isLoad
    · rw [notYet] at isReturned
      cases isReturned
  have pastLater : Past object second state' :=
    Lib.Reachable.invariant past (fun _ _ _ past _ taken => past.step taken)
      (Lib.Reachable.run .refl ranLater)
  rintro rfl
  exact pastLater.returned returnedLater

/-- A second call, made after the first one has returned. -/
theorem later_call_returns_other_twice : ∃ state state' : State,
    run [.call 0, .advance 0, .advance 0, .advance 0] = some state ∧ state.call 0 = .returned 1 ∧
      Lib.run step (fun _ _ => True) state [.call 1, .advance 1, .advance 1, .advance 1] =
        some state' ∧
      state'.call 1 = .returned 2 ∧ 2 ≠ 1 := by
  refine ⟨_, _, rfl, rfl, rfl, rfl, ?_⟩
  exact @later_call_returns_other [.call 0, .advance 0, .advance 0, .advance 0]
    [.call 1, .advance 1, .advance 1, .advance 1] _ _ 0 1 1 2 rfl rfl rfl rfl rfl

end LevelDb.InitOnce
