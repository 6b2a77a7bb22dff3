/-
This file models the condition variable of the Windows port (`port/port_win.cc`): a counter of
waiting threads behind a mutex of its own, and two semaphores that every signal and every
released waiter hand to each other. Any number of threads use one condition variable and its
mutex, one atomic operation at a time in any order.

`SignalAll` releases the first semaphore once and then waits for every counted thread, so with two
or more waiting threads it blocks for ever. As long as it finds at most one, no signal can
get stuck.
-/

import LevelDb.Lib.Run

namespace LevelDb.CondVar

/-! ### The state and its steps -/

/-- The next operation of a thread, named by the call it is in. -/
inductive Pc
  | outside
  | waitLock
  | waitCount
  | waitUnlock
  | waitRelease
  | waitSem1
  | waitSem2
  | waitReacquire
  | signalLock
  | signalTest
  | signalRelease
  | signalSem2
  | signalUnlock
  | allLock
  | allFor (i : Nat)
  | allRelease (i : Nat)
  | allWhile (i : Nat)
  | allSem2 (i : Nat)
  | allUnlock
  deriving DecidableEq, Repr

variable {Thread : Type} [DecidableEq Thread]

/-- The mutexes are given by their owners, the semaphores by their counts. `snapshot` is not part
of the code: it holds, for every call of `SignalAll`, the threads that were waiting when it took
`wait_mtx_`. -/
structure State (Thread : Type) where
  pc : Thread → Pc
  mu : Option Thread
  waitMtx : Option Thread
  waiting : Nat
  sem1 : Nat
  sem2 : Nat
  snapshot : Thread → Thread → Bool

def initial : State Thread :=
  { pc := fun _ => .outside
    mu := none
    waitMtx := none
    waiting := 0
    sem1 := 0
    sem2 := 0
    snapshot := fun _ _ => false }

/-- The thread counted itself in `waiting_` and did not pass `sem1_` since. -/
def Pc.counted : Pc → Bool
  | .waitUnlock | .waitRelease | .waitSem1 => true
  | _ => false

def State.goTo (state : State Thread) (thread : Thread) (pc : Pc) : State Thread :=
  { state with pc := Function.update state.pc thread pc }

/-- A thread locks or unlocks the mutex outside of the calls, starts a call, or executes the
next operation of the call it is in. -/
inductive Action (Thread : Type)
  | lockMu (thread : Thread)
  | unlockMu (thread : Thread)
  | callWait (thread : Thread)
  | callSignal (thread : Thread)
  | callSignalAll (thread : Thread)
  | advance (thread : Thread)

/-- The next operation of a call; `none` while it is blocked. -/
def State.advance (state : State Thread) (thread : Thread) : Option (State Thread) :=
  match state.pc thread with
  | .outside => none
  | .waitLock =>
    if state.waitMtx = none then
      some ({ state with waitMtx := some thread }.goTo thread .waitCount)
    else none
  | .waitCount => some ({ state with waiting := state.waiting + 1 }.goTo thread .waitUnlock)
  | .waitUnlock => some ({ state with waitMtx := none }.goTo thread .waitRelease)
  | .waitRelease => some ({ state with mu := none }.goTo thread .waitSem1)
  | .waitSem1 =>
    if 0 < state.sem1 then some ({ state with sem1 := state.sem1 - 1 }.goTo thread .waitSem2)
    else none
  | .waitSem2 => some ({ state with sem2 := state.sem2 + 1 }.goTo thread .waitReacquire)
  | .waitReacquire =>
    if state.mu = none then some ({ state with mu := some thread }.goTo thread .outside) else none
  | .signalLock =>
    if state.waitMtx = none then
      some ({ state with waitMtx := some thread }.goTo thread .signalTest)
    else none
  | .signalTest =>
    if 0 < state.waiting then
      some ({ state with waiting := state.waiting - 1 }.goTo thread .signalRelease)
    else some (state.goTo thread .signalUnlock)
  | .signalRelease => some ({ state with sem1 := state.sem1 + 1 }.goTo thread .signalSem2)
  | .signalSem2 =>
    if 0 < state.sem2 then some ({ state with sem2 := state.sem2 - 1 }.goTo thread .signalUnlock)
    else none
  | .signalUnlock => some ({ state with waitMtx := none }.goTo thread .outside)
  | .allLock =>
    if state.waitMtx = none then
      some ({ state with
        waitMtx := some thread
        snapshot := Function.update state.snapshot thread fun other =>
          (state.pc other).counted }.goTo thread (.allFor 0))
    else none
  | .allFor i =>
    if i < state.waiting then some (state.goTo thread (.allRelease i))
    else some (state.goTo thread .allUnlock)
  | .allRelease i => some ({ state with sem1 := state.sem1 + 1 }.goTo thread (.allWhile i))
  | .allWhile i =>
    if 0 < state.waiting then
      some ({ state with waiting := state.waiting - 1 }.goTo thread (.allSem2 i))
    else some (state.goTo thread (.allFor (i + 1)))
  | .allSem2 i =>
    if 0 < state.sem2 then some ({ state with sem2 := state.sem2 - 1 }.goTo thread (.allWhile i))
    else none
  | .allUnlock => some ({ state with waitMtx := none }.goTo thread .outside)

/-- One step. `Wait` must be called with the mutex held. -/
def State.step (state : State Thread) : Action Thread → Option (State Thread)
  | .lockMu thread =>
    if state.pc thread = .outside ∧ state.mu = none then some { state with mu := some thread }
    else none
  | .unlockMu thread =>
    if state.pc thread = .outside ∧ state.mu = some thread then some { state with mu := none }
    else none
  | .callWait thread =>
    if state.pc thread = .outside ∧ state.mu = some thread then
      some (state.goTo thread .waitLock)
    else none
  | .callSignal thread =>
    if state.pc thread = .outside then some (state.goTo thread .signalLock) else none
  | .callSignalAll thread =>
    if state.pc thread = .outside then some (state.goTo thread .allLock) else none
  | .advance thread => state.advance thread

/-- The thread is in `Signal` or `SignalAll` and waits for `sem2_`. -/
def State.BlockedOnSem2 (state : State Thread) (thread : Thread) : Prop :=
  (state.pc thread = .signalSem2 ∨ ∃ i, state.pc thread = .allSem2 i) ∧ state.sem2 = 0

/-- Some continuation of the run releases `sem2_`. -/
def State.CanReleaseSem2 (state : State Thread) : Prop :=
  ∃ later, Lib.Reachable State.step (fun _ _ => True) state later ∧ 0 < later.sem2

/-- When the step is `SignalAll` taking `wait_mtx_`, at most one thread is waiting. -/
def State.FewWaiting (state : State Thread) : Action Thread → Prop
  | .advance thread => state.pc thread = .allLock → state.waiting ≤ 1
  | _ => True

/-! ### The invariant -/

/-- The operations between taking and giving back `wait_mtx_`. -/
def Pc.holdsWaitMtx : Pc → Bool
  | .waitCount | .waitUnlock => true
  | .signalTest | .signalRelease | .signalSem2 | .signalUnlock => true
  | .allFor _ | .allRelease _ | .allWhile _ | .allSem2 _ | .allUnlock => true
  | _ => false

/-- Exactly `count` threads are counted and did not pass `sem1_` since. -/
def State.Counts (state : State Thread) (count : Nat) : Prop :=
  ∃ threads : List Thread, threads.Nodup ∧ threads.length = count ∧
    ∀ thread, thread ∈ threads ↔ (state.pc thread).counted = true

/-- No handshake is under way. -/
structure State.Idle (state : State Thread) (count : Nat) : Prop where
  sem1 : state.sem1 = 0
  sem2 : state.sem2 = 0
  noneBetween : ∀ thread, state.pc thread ≠ .waitSem2
  counts : state.Counts count

/-- One thread is being released: it has not passed `sem1_` yet, it is about to release
`sem2_`, or it has done so. -/
def State.Handshake (state : State Thread) (count : Nat) : Prop :=
  (state.sem1 = 1 ∧ state.sem2 = 0 ∧ (∀ thread, state.pc thread ≠ .waitSem2) ∧
      state.Counts (count + 1)) ∨
    (state.sem1 = 0 ∧ state.sem2 = 0 ∧
      (∃ between, ∀ thread, state.pc thread = .waitSem2 ↔ thread = between) ∧
        state.Counts count) ∨
    (state.sem1 = 0 ∧ state.sem2 = 1 ∧ (∀ thread, state.pc thread ≠ .waitSem2) ∧
      state.Counts count)

/-- What holds while the owner of `wait_mtx_` is at an operation. -/
def State.Phase (state : State Thread) : Pc → Prop
  | .signalRelease => state.Idle (state.waiting + 1)
  | .signalSem2 => state.Handshake state.waiting
  | .allFor i => state.Idle state.waiting ∧ state.waiting ≤ 1 ∧ (i = 0 ∨ state.waiting = 0)
  | .allRelease _ => state.Idle state.waiting ∧ state.waiting = 1
  | .allWhile _ =>
    (state.waiting = 1 ∧ state.Handshake 0) ∨ (state.waiting = 0 ∧ state.Idle 0)
  | .allSem2 _ => state.waiting = 0 ∧ state.Handshake 0
  | .allUnlock => state.waiting = 0 ∧ state.Idle 0
  | _ => state.Idle state.waiting

structure State.Inv (state : State Thread) : Prop where
  owner : ∀ thread, (state.pc thread).holdsWaitMtx = true ↔ state.waitMtx = some thread
  free : state.waitMtx = none → state.Idle state.waiting
  phase : ∀ thread, state.waitMtx = some thread → state.Phase (state.pc thread)

omit [DecidableEq Thread] in
theorem initial_inv : (initial : State Thread).Inv := by
  refine ⟨fun thread => ⟨fun holds => (by cases holds), fun isOwner => (by cases isOwner)⟩,
    fun _ => ⟨rfl, rfl, fun thread => (by intro same; cases same), [], List.nodup_nil, rfl, ?_⟩,
    fun thread isOwner => (by cases isOwner)⟩
  exact fun thread => ⟨fun member => absurd member List.not_mem_nil, fun counted => by cases counted⟩

/-! ### Counting threads -/

section Counting

variable {state state' : State Thread} {thread : Thread} {pc : Pc} {count : Nat}

/-- The threads are at operations that agree about being counted and about `sem2_`. -/
def State.Alike (state state' : State Thread) : Prop :=
  ∀ thread, (state'.pc thread).counted = (state.pc thread).counted ∧
    (state'.pc thread = .waitSem2 ↔ state.pc thread = .waitSem2)

theorem State.alike_of_update (moved : state'.pc = Function.update state.pc thread pc)
    (counted : pc.counted = (state.pc thread).counted)
    (between : pc = .waitSem2 ↔ state.pc thread = .waitSem2) : state.Alike state' := by
  intro other
  rw [moved]
  by_cases same : other = thread
  · subst same
    rw [Function.update_self]
    exact ⟨counted, between⟩
  · rw [Function.update_of_ne same]
    exact ⟨rfl, Iff.rfl⟩

omit [DecidableEq Thread] in
theorem State.Counts.congr (counts : state.Counts count) (alike : state.Alike state') :
    state'.Counts count := by
  obtain ⟨threads, distinct, length, members⟩ := counts
  refine ⟨threads, distinct, length, fun thread => ?_⟩
  rw [members, (alike thread).1]

omit [DecidableEq Thread] in
theorem State.Idle.congr (idle : state.Idle count) (alike : state.Alike state')
    (sem1 : state'.sem1 = state.sem1) (sem2 : state'.sem2 = state.sem2) : state'.Idle count :=
  ⟨sem1.trans idle.sem1, sem2.trans idle.sem2,
    fun thread between => idle.noneBetween thread ((alike thread).2.mp between),
    idle.counts.congr alike⟩

omit [DecidableEq Thread] in
theorem State.Handshake.congr (handshake : state.Handshake count) (alike : state.Alike state')
    (sem1 : state'.sem1 = state.sem1) (sem2 : state'.sem2 = state.sem2) :
    state'.Handshake count := by
  rw [State.Handshake, sem1, sem2]
  rcases handshake with ⟨one, zero, none, counts⟩ | ⟨zero, zero', ⟨between, only⟩, counts⟩ |
    ⟨zero, one, none, counts⟩
  · exact Or.inl ⟨one, zero, fun thread at_ => none thread ((alike thread).2.mp at_),
      counts.congr alike⟩
  · exact Or.inr (Or.inl ⟨zero, zero', ⟨between, fun thread => (alike thread).2.trans (only thread)⟩,
      counts.congr alike⟩)
  · exact Or.inr (Or.inr ⟨zero, one, fun thread at_ => none thread ((alike thread).2.mp at_),
      counts.congr alike⟩)

/-- A thread counts itself. -/
theorem State.Counts.add (counts : state.Counts count)
    (moved : state'.pc = Function.update state.pc thread pc)
    (before : (state.pc thread).counted = false) (after : pc.counted = true) :
    state'.Counts (count + 1) := by
  obtain ⟨threads, distinct, length, members⟩ := counts
  have fresh : thread ∉ threads := by
    rw [members, before]
    exact Bool.false_ne_true
  refine ⟨thread :: threads, List.nodup_cons.mpr ⟨fresh, distinct⟩, congrArg _ length, ?_⟩
  intro other
  rw [List.mem_cons, members, moved]
  by_cases same : other = thread
  · subst same
    rw [Function.update_self]
    exact ⟨fun _ => after, fun _ => Or.inl rfl⟩
  · rw [Function.update_of_ne same]
    exact ⟨fun either => either.resolve_left same, Or.inr⟩

/-- A counted thread passes `sem1_`. -/
theorem State.Counts.remove (counts : state.Counts (count + 1))
    (moved : state'.pc = Function.update state.pc thread pc)
    (before : (state.pc thread).counted = true) (after : pc.counted = false) :
    state'.Counts count := by
  obtain ⟨threads, distinct, length, members⟩ := counts
  have member : thread ∈ threads := (members thread).mpr before
  refine ⟨threads.erase thread, distinct.erase thread, ?_, ?_⟩
  · rw [List.length_erase_of_mem member, length]
    rfl
  intro other
  rw [distinct.mem_erase_iff, members, moved]
  by_cases same : other = thread
  · subst same
    rw [Function.update_self, after]
    exact ⟨fun both => absurd rfl both.1, fun counted => by cases counted⟩
  · rw [Function.update_of_ne same]
    exact ⟨fun both => both.2, fun counted => ⟨same, counted⟩⟩

end Counting

/-! ### What a step keeps -/

section Step

variable {state state' : State Thread} {thread : Thread} {pc : Pc}

theorem State.Inv.holds_update (inv : state.Inv)
    (moved : state'.pc = Function.update state.pc thread pc) {other : Thread}
    (different : other ≠ thread) :
    (state'.pc other).holdsWaitMtx = true ↔ state.waitMtx = some other := by
  rw [moved, Function.update_of_ne different]
  exact inv.owner other

/-- A thread takes `wait_mtx_`. -/
theorem State.Inv.lock (inv : state.Inv) (isFree : state.waitMtx = none)
    (moved : state'.pc = Function.update state.pc thread pc) (owned : state'.waitMtx = some thread)
    (holds : pc.holdsWaitMtx = true) (phase : state'.Phase pc) : state'.Inv := by
  have own : state'.pc thread = pc := by rw [moved, Function.update_self]
  refine ⟨fun other => ?_, fun isNone => ?_, fun other isOwner => ?_⟩
  · by_cases same : other = thread
    · rw [same, own]
      exact ⟨fun _ => owned, fun _ => holds⟩
    · rw [inv.holds_update moved same, isFree, owned, Option.some_inj]
      exact ⟨fun isOwner => (by cases isOwner), fun isOwner => absurd isOwner.symm same⟩
  · rw [owned] at isNone
    cases isNone
  · rw [owned, Option.some_inj] at isOwner
    rw [← isOwner, own]
    exact phase

/-- The owner of `wait_mtx_` goes on. -/
theorem State.Inv.stay (inv : state.Inv) (isOwner : state.waitMtx = some thread)
    (moved : state'.pc = Function.update state.pc thread pc)
    (owned : state'.waitMtx = some thread) (holds : pc.holdsWaitMtx = true)
    (phase : state'.Phase pc) : state'.Inv := by
  have own : state'.pc thread = pc := by rw [moved, Function.update_self]
  refine ⟨fun other => ?_, fun isNone => ?_, fun other isOwner' => ?_⟩
  · by_cases same : other = thread
    · rw [same, own]
      exact ⟨fun _ => owned, fun _ => holds⟩
    · rw [inv.holds_update moved same, isOwner, owned]
  · rw [owned] at isNone
    cases isNone
  · rw [owned, Option.some_inj] at isOwner'
    rw [← isOwner', own]
    exact phase

/-- The owner gives `wait_mtx_` back. -/
theorem State.Inv.unlock (inv : state.Inv) (isOwner : state.waitMtx = some thread)
    (moved : state'.pc = Function.update state.pc thread pc) (freed : state'.waitMtx = none)
    (leaves : pc.holdsWaitMtx = false) (idle : state'.Idle state'.waiting) : state'.Inv := by
  refine ⟨fun other => ?_, fun _ => idle, fun other isOwner' => ?_⟩
  · by_cases same : other = thread
    · rw [same, moved, Function.update_self, leaves, freed]
      exact ⟨fun holds => (by cases holds), fun isOwner' => by cases isOwner'⟩
    · rw [inv.holds_update moved same, isOwner, freed, Option.some_inj]
      exact ⟨fun isOther => absurd isOther.symm same, fun isOwner' => by cases isOwner'⟩
  · rw [freed] at isOwner'
    cases isOwner'

omit [DecidableEq Thread] in
theorem State.Phase.imp (waiting : state'.waiting = state.waiting)
    (idle : ∀ count, state.Idle count → state'.Idle count)
    (handshake : ∀ count, state.Handshake count → state'.Handshake count)
    (phase : state.Phase pc) : state'.Phase pc := by
  unfold State.Phase at phase ⊢
  rw [waiting]
  cases pc with
  | signalSem2 => exact handshake _ phase
  | allFor i => exact ⟨idle _ phase.1, phase.2⟩
  | allRelease i => exact ⟨idle _ phase.1, phase.2⟩
  | allWhile i =>
    exact phase.imp (fun busy => ⟨busy.1, handshake _ busy.2⟩) fun rest => ⟨rest.1, idle _ rest.2⟩
  | allSem2 i => exact ⟨phase.1, handshake _ phase.2⟩
  | allUnlock => exact ⟨phase.1, idle _ phase.2⟩
  | _ => exact idle _ phase

/-- A thread that does not own `wait_mtx_` takes a step. -/
theorem State.Inv.aside (inv : state.Inv) (notOwner : (state.pc thread).holdsWaitMtx = false)
    (moved : state'.pc = Function.update state.pc thread pc)
    (same : state'.waitMtx = state.waitMtx) (leaves : pc.holdsWaitMtx = false)
    (waiting : state'.waiting = state.waiting)
    (idle : ∀ count, state.Idle count → state'.Idle count)
    (handshake : ∀ count, state.Handshake count → state'.Handshake count) : state'.Inv := by
  have notOwned : ∀ other, state.waitMtx = some other → other ≠ thread := by
    intro other isOwner isThread
    have holds := (inv.owner other).mpr isOwner
    rw [isThread, notOwner] at holds
    cases holds
  refine ⟨fun other => ?_, fun isNone => ?_, fun other isOwner => ?_⟩
  · by_cases isThread : other = thread
    · rw [same, isThread, moved, Function.update_self, leaves]
      exact ⟨fun holds => (by cases holds), fun isOwner => absurd rfl (notOwned thread isOwner)⟩
    · rw [inv.holds_update moved isThread, same]
  · rw [same] at isNone
    rw [waiting]
    exact idle _ (inv.free isNone)
  · rw [same] at isOwner
    rw [moved, Function.update_of_ne (notOwned other isOwner)]
    exact (inv.phase other isOwner).imp waiting idle handshake

/-- A thread that does not own `wait_mtx_` takes a step that touches neither the semaphores nor
the count. -/
theorem State.Inv.neutral (inv : state.Inv) (notOwner : (state.pc thread).holdsWaitMtx = false)
    (moved : state'.pc = Function.update state.pc thread pc)
    (same : state'.waitMtx = state.waitMtx) (leaves : pc.holdsWaitMtx = false)
    (waiting : state'.waiting = state.waiting) (sem1 : state'.sem1 = state.sem1)
    (sem2 : state'.sem2 = state.sem2) (counted : pc.counted = (state.pc thread).counted)
    (between : pc = .waitSem2 ↔ state.pc thread = .waitSem2) : state'.Inv := by
  have alike := State.alike_of_update moved counted between
  exact inv.aside notOwner moved same leaves waiting (fun _ idle => idle.congr alike sem1 sem2)
    (fun _ handshake => handshake.congr alike sem1 sem2)

/-- A counted thread passes `sem1_`. -/
theorem State.Inv.passSem1 (inv : state.Inv) (isAt : state.pc thread = .waitSem1)
    (positive : 0 < state.sem1) :
    ({ state with sem1 := state.sem1 - 1 }.goTo thread .waitSem2).Inv := by
  have before : (state.pc thread).counted = true := by rw [isAt]; rfl
  refine inv.aside (by rw [isAt]; rfl) rfl rfl rfl rfl ?_ ?_
  · intro count idle
    rw [idle.sem1] at positive
    cases positive
  · rintro count (⟨one, zero, none, counts⟩ | ⟨zero, _⟩ | ⟨zero, _⟩)
    · refine Or.inr (Or.inl ⟨by rw [State.goTo, one], zero, ⟨thread, fun other => ?_⟩,
        counts.remove rfl before rfl⟩)
      show Function.update state.pc thread Pc.waitSem2 other = Pc.waitSem2 ↔ other = thread
      by_cases same : other = thread
      · rw [same, Function.update_self]
        exact ⟨fun _ => rfl, fun _ => rfl⟩
      · rw [Function.update_of_ne same]
        exact ⟨fun isBetween => absurd isBetween (none other), fun isThread => absurd isThread same⟩
    · rw [zero] at positive
      cases positive
    · rw [zero] at positive
      cases positive

/-- A released thread releases `sem2_`. -/
theorem State.Inv.releaseSem2 (inv : state.Inv) (isAt : state.pc thread = .waitSem2) :
    ({ state with sem2 := state.sem2 + 1 }.goTo thread .waitReacquire).Inv := by
  have alikeCounts : ∀ count, state.Counts count →
      ({ state with sem2 := state.sem2 + 1 }.goTo thread .waitReacquire).Counts count := by
    rintro count ⟨threads, distinct, length, members⟩
    refine ⟨threads, distinct, length, fun other => ?_⟩
    show other ∈ threads ↔ (Function.update state.pc thread Pc.waitReacquire other).counted = true
    by_cases same : other = thread
    · rw [same, Function.update_self, members, isAt]
      rfl
    · rw [Function.update_of_ne same, members]
  refine inv.aside (by rw [isAt]; rfl) rfl rfl rfl rfl ?_ ?_
  · exact fun count idle => absurd isAt (idle.noneBetween thread)
  · rintro count (⟨_, _, none, _⟩ | ⟨zero, zero', ⟨between, only⟩, counts⟩ | ⟨_, _, none, _⟩)
    · exact absurd isAt (none thread)
    · refine Or.inr (Or.inr ⟨zero, by rw [State.goTo, zero'], fun other => ?_,
        alikeCounts _ counts⟩)
      show Function.update state.pc thread Pc.waitReacquire other ≠ Pc.waitSem2
      by_cases same : other = thread
      · rw [same, Function.update_self]
        exact fun isBetween => by cases isBetween
      · rw [Function.update_of_ne same, Ne, only, ← (only thread).mp isAt]
        exact same
    · exact absurd isAt (none thread)

omit [DecidableEq Thread] in
/-- Releasing `sem1_` for one of the counted threads starts a handshake. -/
theorem State.Idle.release {count : Nat} (idle : state.Idle (count + 1))
    (alike : state.Alike state') (sem1 : state'.sem1 = state.sem1 + 1)
    (sem2 : state'.sem2 = state.sem2) : state'.Handshake count :=
  Or.inl ⟨by rw [sem1, idle.sem1], sem2.trans idle.sem2,
    fun thread between => idle.noneBetween thread ((alike thread).2.mp between),
    idle.counts.congr alike⟩

omit [DecidableEq Thread] in
/-- Passing `sem2_` ends the handshake. -/
theorem State.Handshake.finish {count : Nat} (handshake : state.Handshake count)
    (positive : 0 < state.sem2) (alike : state.Alike state') (sem1 : state'.sem1 = state.sem1)
    (sem2 : state'.sem2 = state.sem2 - 1) : state'.Idle count := by
  rcases handshake with ⟨_, zero, _⟩ | ⟨_, zero, _⟩ | ⟨zero, one, none, counts⟩
  · rw [zero] at positive
    cases positive
  · rw [zero] at positive
    cases positive
  · exact ⟨sem1.trans zero, by rw [sem2, one],
      fun thread between => none thread ((alike thread).2.mp between), counts.congr alike⟩

/-- The steps of the owner of `wait_mtx_` outside of the handshake leave the threads alike. -/
theorem State.Alike.goTo {pc' : Pc} (isAt : state.pc thread = pc)
    (moved : state'.pc = Function.update state.pc thread pc') (counted : pc'.counted = pc.counted)
    (between : pc' = .waitSem2 ↔ pc = .waitSem2) : state.Alike state' := by
  subst isAt
  exact State.alike_of_update moved counted between

omit [DecidableEq Thread] in
theorem State.Inv.phase_of (inv : state.Inv) (isAt : state.pc thread = pc)
    (holds : pc.holdsWaitMtx = true) : state.waitMtx = some thread ∧ state.Phase pc := by
  have isOwner := (inv.owner thread).mp (isAt ▸ holds)
  exact ⟨isOwner, isAt ▸ inv.phase thread isOwner⟩

/-- An operation of a call keeps the invariant. -/
theorem State.Inv.advance (inv : state.Inv)
    (few : state.pc thread = .allLock → state.waiting ≤ 1)
    (taken : state.advance thread = some state') : state'.Inv := by
  rw [State.advance] at taken
  cases isAt : state.pc thread with
  | outside =>
    simp only [isAt] at taken
    cases taken
  | waitLock =>
    simp only [isAt] at taken
    split at taken
    · rename_i isFree
      cases taken
      refine inv.lock isFree rfl rfl rfl ?_
      exact (inv.free isFree).congr (.goTo isAt rfl rfl (by simp)) rfl rfl
    · cases taken
  | waitCount =>
    simp only [isAt] at taken
    cases taken
    obtain ⟨isOwner, idle⟩ := inv.phase_of isAt rfl
    refine inv.stay isOwner rfl isOwner rfl ⟨idle.sem1, idle.sem2, ?_, ?_⟩
    · intro other
      show Function.update state.pc thread Pc.waitUnlock other ≠ Pc.waitSem2
      by_cases same : other = thread
      · rw [same, Function.update_self]
        exact fun isBetween => by cases isBetween
      · rw [Function.update_of_ne same]
        exact idle.noneBetween other
    · exact idle.counts.add rfl (by rw [isAt]; rfl) rfl
  | waitUnlock =>
    simp only [isAt] at taken
    cases taken
    obtain ⟨isOwner, idle⟩ := inv.phase_of isAt rfl
    exact inv.unlock isOwner rfl rfl rfl (idle.congr (.goTo isAt rfl rfl (by simp)) rfl rfl)
  | waitRelease =>
    simp only [isAt] at taken
    cases taken
    exact inv.neutral (by rw [isAt]; rfl) rfl rfl rfl rfl rfl rfl (by rw [isAt]; rfl) (by simp [isAt])
  | waitSem1 =>
    simp only [isAt] at taken
    split at taken
    · rename_i positive
      cases taken
      exact inv.passSem1 isAt positive
    · cases taken
  | waitSem2 =>
    simp only [isAt] at taken
    cases taken
    exact inv.releaseSem2 isAt
  | waitReacquire =>
    simp only [isAt] at taken
    split at taken
    · cases taken
      exact inv.neutral (by rw [isAt]; rfl) rfl rfl rfl rfl rfl rfl (by rw [isAt]; rfl)
        (by simp [isAt])
    · cases taken
  | signalLock =>
    simp only [isAt] at taken
    split at taken
    · rename_i isFree
      cases taken
      refine inv.lock isFree rfl rfl rfl ?_
      exact (inv.free isFree).congr (.goTo isAt rfl rfl (by simp)) rfl rfl
    · cases taken
  | signalTest =>
    simp only [isAt] at taken
    obtain ⟨isOwner, idle⟩ := inv.phase_of isAt rfl
    split at taken
    · rename_i positive
      cases taken
      refine inv.stay isOwner rfl isOwner rfl ?_
      show State.Idle _ (state.waiting - 1 + 1)
      rw [Nat.sub_add_cancel positive]
      exact State.Idle.congr idle (.goTo isAt rfl rfl (by simp)) rfl rfl
    · cases taken
      exact inv.stay isOwner rfl isOwner rfl (idle.congr (.goTo isAt rfl rfl (by simp)) rfl rfl)
  | signalRelease =>
    simp only [isAt] at taken
    cases taken
    obtain ⟨isOwner, idle⟩ := inv.phase_of isAt rfl
    exact inv.stay isOwner rfl isOwner rfl
      (State.Idle.release idle (.goTo isAt rfl rfl (by simp)) rfl rfl)
  | signalSem2 =>
    simp only [isAt] at taken
    split at taken
    · rename_i positive
      cases taken
      obtain ⟨isOwner, handshake⟩ := inv.phase_of isAt rfl
      exact inv.stay isOwner rfl isOwner rfl
        (State.Handshake.finish handshake positive (.goTo isAt rfl rfl (by simp)) rfl rfl)
    · cases taken
  | signalUnlock =>
    simp only [isAt] at taken
    cases taken
    obtain ⟨isOwner, idle⟩ := inv.phase_of isAt rfl
    exact inv.unlock isOwner rfl rfl rfl (idle.congr (.goTo isAt rfl rfl (by simp)) rfl rfl)
  | allLock =>
    simp only [isAt] at taken
    split at taken
    · rename_i isFree
      cases taken
      refine inv.lock isFree rfl rfl rfl ⟨?_, few isAt, Or.inl rfl⟩
      exact (inv.free isFree).congr (.goTo isAt rfl rfl (by simp)) rfl rfl
    · cases taken
  | allFor i =>
    simp only [isAt] at taken
    obtain ⟨isOwner, idle, atMostOne, first⟩ := inv.phase_of isAt rfl
    split at taken
    · rename_i below
      cases taken
      refine inv.stay isOwner rfl isOwner rfl
        ⟨idle.congr (.goTo isAt rfl rfl (by simp)) rfl rfl, ?_⟩
      show state.waiting = 1
      omega
    · rename_i notBelow
      cases taken
      have zero : state.waiting = 0 := by omega
      rw [zero] at idle
      exact inv.stay isOwner rfl isOwner rfl
        ⟨zero, idle.congr (.goTo isAt rfl rfl (by simp)) rfl rfl⟩
  | allRelease i =>
    simp only [isAt] at taken
    cases taken
    obtain ⟨isOwner, idle, one⟩ := inv.phase_of isAt rfl
    rw [one] at idle
    exact inv.stay isOwner rfl isOwner rfl
      (Or.inl ⟨one, State.Idle.release idle (.goTo isAt rfl rfl (by simp)) rfl rfl⟩)
  | allWhile i =>
    simp only [isAt] at taken
    obtain ⟨isOwner, phase⟩ := inv.phase_of isAt rfl
    rcases phase with ⟨one, handshake⟩ | ⟨zero, idle⟩
    · rw [if_pos (one ▸ Nat.one_pos)] at taken
      cases taken
      refine inv.stay isOwner rfl isOwner rfl
        ⟨?_, handshake.congr (.goTo isAt rfl rfl (by simp)) rfl rfl⟩
      show state.waiting - 1 = 0
      rw [one]
    · rw [if_neg (zero ▸ Nat.lt_irrefl 0)] at taken
      cases taken
      refine inv.stay isOwner rfl isOwner rfl ⟨?_, ?_, Or.inr zero⟩
      · show State.Idle _ state.waiting
        rw [zero]
        exact idle.congr (.goTo isAt rfl rfl (by simp)) rfl rfl
      · show state.waiting ≤ 1
        rw [zero]
        exact Nat.zero_le 1
  | allSem2 i =>
    simp only [isAt] at taken
    split at taken
    · rename_i positive
      cases taken
      obtain ⟨isOwner, zero, handshake⟩ := inv.phase_of isAt rfl
      exact inv.stay isOwner rfl isOwner rfl
        (Or.inr ⟨zero, handshake.finish positive (.goTo isAt rfl rfl (by simp)) rfl rfl⟩)
    · cases taken
  | allUnlock =>
    simp only [isAt] at taken
    cases taken
    obtain ⟨isOwner, zero, idle⟩ := inv.phase_of isAt rfl
    rw [← zero] at idle
    exact inv.unlock isOwner rfl rfl rfl (idle.congr (.goTo isAt rfl rfl (by simp)) rfl rfl)

theorem State.Inv.step (inv : state.Inv) {action : Action Thread} (few : state.FewWaiting action)
    (taken : state.step action = some state') : state'.Inv := by
  have stays : ∀ (thread : Thread) (mu : Option Thread), state.pc thread = .outside →
      ({ state with mu } : State Thread).Inv := fun thread mu isAt =>
    inv.neutral (by rw [isAt]; rfl) (Function.update_eq_self thread state.pc).symm rfl
      (by rw [isAt]; rfl) rfl rfl rfl rfl Iff.rfl
  have calls : ∀ (thread : Thread) (pc : Pc), state.pc thread = .outside →
      pc.holdsWaitMtx = false → pc.counted = false → pc ≠ .waitSem2 → (state.goTo thread pc).Inv :=
    fun thread pc isAt leaves counted between =>
      inv.neutral (by rw [isAt]; rfl) rfl rfl leaves rfl rfl rfl (by rw [isAt, counted]; rfl)
        (by simp [isAt, between])
  cases action with
  | lockMu thread =>
    rw [State.step] at taken
    split at taken
    · rename_i isAt
      cases taken
      exact stays thread _ isAt.1
    · cases taken
  | unlockMu thread =>
    rw [State.step] at taken
    split at taken
    · rename_i isAt
      cases taken
      exact stays thread _ isAt.1
    · cases taken
  | callWait thread =>
    rw [State.step] at taken
    split at taken
    · rename_i isAt
      cases taken
      exact calls thread _ isAt.1 rfl rfl (by simp)
    · cases taken
  | callSignal thread =>
    rw [State.step] at taken
    split at taken
    · rename_i isAt
      cases taken
      exact calls thread _ isAt rfl rfl (by simp)
    · cases taken
  | callSignalAll thread =>
    rw [State.step] at taken
    split at taken
    · rename_i isAt
      cases taken
      exact calls thread _ isAt rfl rfl (by simp)
    · cases taken
  | advance thread => exact inv.advance few taken

end Step

/-! ### No signal gets stuck -/

theorem inv_of_reachable {state : State Thread}
    (reachable : Lib.Reachable State.step State.FewWaiting initial state) : state.Inv := by
  have kept : ∀ (state : State Thread) action state', state.Inv → state.FewWaiting action →
      state.step action = some state' → state'.Inv :=
    fun _ _ _ inv few taken => inv.step few taken
  exact reachable.invariant initial_inv kept

theorem State.CanReleaseSem2.of_advance {state later : State Thread} {thread : Thread}
    (can : later.CanReleaseSem2) (taken : state.advance thread = some later) :
    state.CanReleaseSem2 := by
  obtain ⟨last, reachable, positive⟩ := can
  have first : Lib.Reachable State.step (fun _ _ => True) state later :=
    .next (.advance thread) .refl trivial taken
  exact ⟨last, first.trans reachable, positive⟩

/-- A thread that passed `sem1_` releases `sem2_`. -/
theorem State.canRelease_of_waitSem2 (state : State Thread) (thread : Thread)
    (isAt : state.pc thread = .waitSem2) : state.CanReleaseSem2 := by
  have taken : state.advance thread =
      some ({ state with sem2 := state.sem2 + 1 }.goTo thread .waitReacquire) := by
    rw [State.advance, isAt]
  refine State.CanReleaseSem2.of_advance ?_ taken
  exact ⟨_, .refl, Nat.succ_pos _⟩

/-- A thread that waits for a released `sem1_` passes it. -/
theorem State.canRelease_of_waitSem1 (state : State Thread) (thread : Thread)
    (isAt : state.pc thread = .waitSem1) (positive : 0 < state.sem1) : state.CanReleaseSem2 := by
  have taken : state.advance thread =
      some ({ state with sem1 := state.sem1 - 1 }.goTo thread .waitSem2) := by
    rw [State.advance, isAt]
    exact if_pos positive
  refine State.CanReleaseSem2.of_advance ?_ taken
  exact State.canRelease_of_waitSem2 _ thread (Function.update_self _ _ _)

/-- A counted thread that gave `wait_mtx_` back goes on to `sem1_`. -/
theorem State.canRelease_of_counted (state : State Thread) (thread : Thread)
    (counted : (state.pc thread).counted = true) (unlocked : state.pc thread ≠ .waitUnlock)
    (positive : 0 < state.sem1) : state.CanReleaseSem2 := by
  cases isAt : state.pc thread with
  | waitUnlock => exact absurd isAt unlocked
  | waitRelease =>
    have taken : state.advance thread = some ({ state with mu := none }.goTo thread .waitSem1) := by
      rw [State.advance, isAt]
    refine State.CanReleaseSem2.of_advance ?_ taken
    exact State.canRelease_of_waitSem1 _ thread (Function.update_self _ _ _) positive
  | waitSem1 => exact state.canRelease_of_waitSem1 thread isAt positive
  | _ =>
    rw [isAt] at counted
    cases counted

/-- A handshake under way can always be completed. -/
theorem State.Handshake.canRelease {state : State Thread} (inv : state.Inv) {thread : Thread}
    (isOwner : state.waitMtx = some thread) (notWaiting : state.pc thread ≠ .waitUnlock)
    {count : Nat} (handshake : state.Handshake count) (blocked : state.sem2 = 0) :
    state.CanReleaseSem2 := by
  rcases handshake with ⟨one, _, _, threads, _, length, members⟩ | ⟨_, _, ⟨between, only⟩, _⟩ |
    ⟨_, one, _⟩
  · have positive : 0 < threads.length := by rw [length]; exact Nat.succ_pos count
    obtain ⟨other, member⟩ := List.exists_mem_of_length_pos positive
    refine state.canRelease_of_counted other ((members other).mp member) ?_ (one ▸ Nat.one_pos)
    intro isAt
    have owns := (inv.owner other).mp (isAt ▸ rfl)
    rw [isOwner, Option.some_inj] at owns
    exact notWaiting (owns ▸ isAt)
  · exact state.canRelease_of_waitSem2 between ((only between).mpr rfl)
  · rw [one] at blocked
    cases blocked

/-- In every run in which `SignalAll` finds at most one waiting thread, no signal is stuck at
`sem2_`, and when `SignalAll` is about to return, every thread that was waiting when it took
`wait_mtx_` has passed `sem1_`. -/
theorem handshake_of_reachable {state : State Thread}
    (reachable : Lib.Reachable State.step State.FewWaiting initial state) :
    (∀ thread, state.BlockedOnSem2 thread → state.CanReleaseSem2) ∧
      ∀ thread, state.pc thread = .allUnlock →
        ∀ other, state.snapshot thread other = true → (state.pc other).counted = false := by
  have inv := inv_of_reachable reachable
  constructor
  · rintro thread ⟨isAt | ⟨i, isAt⟩, blocked⟩
    · obtain ⟨isOwner, handshake⟩ := inv.phase_of isAt rfl
      exact State.Handshake.canRelease inv isOwner (by simp [isAt]) handshake blocked
    · obtain ⟨isOwner, _, handshake⟩ := inv.phase_of isAt rfl
      exact State.Handshake.canRelease inv isOwner (by simp [isAt]) handshake blocked
  · intro thread isAt other _
    obtain ⟨_, _, idle⟩ := inv.phase_of isAt rfl
    obtain ⟨threads, _, length, members⟩ := idle.counts
    rw [List.eq_nil_of_length_eq_zero length] at members
    rw [← Bool.not_eq_true]
    exact fun counted => absurd ((members other).mpr counted) List.not_mem_nil

instance (state : State Thread) (action : Action Thread) : Decidable (state.FewWaiting action) :=
  match action with
  | .advance thread => inferInstanceAs (Decidable (state.pc thread = .allLock → state.waiting ≤ 1))
  | .lockMu _ | .unlockMu _ | .callWait _ | .callSignal _ | .callSignalAll _ => .isTrue trivial

/-- The lock, the call and the four operations that bring a thread to `sem1_`. -/
def waitCalls (thread : Thread) : List (Action Thread) :=
  [.lockMu thread, .callWait thread, .advance thread, .advance thread, .advance thread,
    .advance thread]

/-- One thread waits, the other one is in `SignalAll` and waits for `sem2_`. -/
theorem handshake_of_reachable_one_waiting :
    ∃ state : State (Fin 2), state.BlockedOnSem2 1 ∧ state.CanReleaseSem2 := by
  obtain ⟨state, reachable, isBlocked⟩ := Lib.exists_of_run
    (show (Lib.run State.step State.FewWaiting (initial : State (Fin 2)) (waitCalls 0 ++
        [.callSignalAll 1, .advance 1, .advance 1, .advance 1, .advance 1])).any
      (fun state => decide (state.pc 1 = .allSem2 0 ∧ state.sem2 = 0)) = true by decide +kernel)
  obtain ⟨isAt, zero⟩ := of_decide_eq_true isBlocked
  have blocked : state.BlockedOnSem2 1 := ⟨Or.inr ⟨0, isAt⟩, zero⟩
  exact ⟨state, blocked, (handshake_of_reachable reachable).1 1 blocked⟩

/-! ### Two waiting threads -/

/-- The operations of a thread that cannot go on without `wait_mtx_` or `sem1_`, and that does
not change them. -/
def Pc.needs : Pc → Bool
  | .outside | .waitLock | .waitRelease | .waitSem1 | .waitReacquire | .signalLock | .allLock => true
  | _ => false

/-- A `SignalAll` waits for `sem2_`, and no other thread is between `sem1_` and `sem2_`. -/
structure State.Stuck (state : State Thread) (thread : Thread) : Prop where
  owned : state.waitMtx = some thread
  isAt : state.pc thread = .allSem2 0
  sem1 : state.sem1 = 0
  sem2 : state.sem2 = 0
  others : ∀ other, other ≠ thread → (state.pc other).needs = true

omit [DecidableEq Thread] in
theorem State.Stuck.ne {state : State Thread} {thread other : Thread} (stuck : state.Stuck thread)
    {pc : Pc} (isAt : state.pc other = pc) (different : pc ≠ .allSem2 0) : other ≠ thread := by
  intro same
  rw [same, stuck.isAt] at isAt
  exact different isAt.symm

theorem State.Stuck.move {state state' : State Thread} {thread other : Thread} {pc : Pc}
    (stuck : state.Stuck thread) (different : other ≠ thread)
    (moved : state'.pc = Function.update state.pc other pc) (needs : pc.needs = true)
    (waitMtx : state'.waitMtx = state.waitMtx) (sem1 : state'.sem1 = state.sem1)
    (sem2 : state'.sem2 = state.sem2) : state'.Stuck thread := by
  refine ⟨waitMtx.trans stuck.owned, ?_, sem1.trans stuck.sem1, sem2.trans stuck.sem2, ?_⟩
  · rw [moved, Function.update_of_ne (Ne.symm different)]
    exact stuck.isAt
  · intro third notThread
    rw [moved]
    by_cases same : third = other
    · rw [same, Function.update_self]
      exact needs
    · rw [Function.update_of_ne same]
      exact stuck.others third notThread

/-- No operation of any call ends the wait. -/
theorem State.Stuck.advance {state state' : State Thread} {thread other : Thread}
    (stuck : state.Stuck thread) (taken : state.advance other = some state') :
    state'.Stuck thread := by
  by_cases same : other = thread
  · rw [State.advance, same, stuck.isAt] at taken
    simp only [stuck.sem2, Nat.lt_irrefl, if_false] at taken
    cases taken
  have needs := stuck.others other same
  rw [State.advance] at taken
  cases isAt : state.pc other with
  | waitRelease =>
    rw [isAt] at taken
    cases taken
    exact stuck.move same rfl rfl rfl rfl rfl
  | waitReacquire =>
    rw [isAt] at taken
    simp only at taken
    split at taken
    · cases taken
      exact stuck.move same rfl rfl rfl rfl rfl
    · cases taken
  | outside | waitLock | waitSem1 | signalLock | allLock =>
    simp [isAt, stuck.owned, stuck.sem1] at taken
  | _ =>
    rw [isAt] at needs
    cases needs

theorem State.Stuck.step {state state' : State Thread} {thread : Thread} {action : Action Thread}
    (stuck : state.Stuck thread) (taken : state.step action = some state') :
    state'.Stuck thread := by
  cases action with
  | advance other => exact stuck.advance taken
  | lockMu other =>
    rw [State.step] at taken
    split at taken
    · cases taken
      exact { stuck with }
    · cases taken
  | unlockMu other =>
    rw [State.step] at taken
    split at taken
    · cases taken
      exact { stuck with }
    · cases taken
  | callWait other | callSignal other | callSignalAll other =>
    rw [State.step] at taken
    split at taken
    · rename_i starts
      cases taken
      have isOutside : state.pc other = .outside := by first | exact starts.1 | exact starts
      exact stuck.move (stuck.ne isOutside (by decide)) rfl rfl rfl rfl rfl
    · cases taken

/-- Nothing releases `sem2_` any more. -/
theorem State.Stuck.not_canReleaseSem2 {state : State Thread} {thread : Thread}
    (stuck : state.Stuck thread) : ¬ state.CanReleaseSem2 := by
  rintro ⟨later, reachable, positive⟩
  have kept : ∀ (state : State Thread) action state', state.Stuck thread → True →
      state.step action = some state' → state'.Stuck thread :=
    fun _ _ _ stuck _ taken => stuck.step taken
  have last : later.Stuck thread :=
    @Lib.Reachable.invariant _ _ _ _ _ (fun state => state.Stuck thread) stuck kept _ reachable
  rw [last.sem2] at positive
  exact absurd positive (Nat.lt_irrefl 0)

/-- Two threads wait and a third one signals all: one of the two passes, and `SignalAll` waits
for `sem2_` a second time with nothing left to release it. -/
theorem signalAll_blocks_two_waiting :
    ∃ state : State (Fin 3), Lib.Reachable State.step (fun _ _ => True) initial state ∧
      state.BlockedOnSem2 2 ∧ ¬ state.CanReleaseSem2 := by
  obtain ⟨state, reachable, outcome⟩ := Lib.exists_of_run
    (show (Lib.run State.step (fun _ _ => True) (initial : State (Fin 3))
        (waitCalls 0 ++ waitCalls 1 ++
          [.callSignalAll 2, .advance 2, .advance 2, .advance 2, .advance 2, .advance 0, .advance 0,
            .advance 2, .advance 2])).any
      (fun state => decide (state.waitMtx = some 2 ∧ state.pc 2 = .allSem2 0 ∧ state.sem1 = 0 ∧
        state.sem2 = 0 ∧ ∀ other, other ≠ 2 → (state.pc other).needs = true)) = true by
      decide +kernel)
  obtain ⟨owned, isAt, sem1, sem2, others⟩ := of_decide_eq_true outcome
  have stuck : state.Stuck 2 := ⟨owned, isAt, sem1, sem2, others⟩
  exact ⟨state, reachable, ⟨Or.inr ⟨0, isAt⟩, sem2⟩, stuck.not_canReleaseSem2⟩

end LevelDb.CondVar
