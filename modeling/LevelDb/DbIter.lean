/-
This file models `DBIter` (`db/db_iter.cc`), the iterator that clients see. It walks the internal
entries of the database in either direction, hides the entries newer than its snapshot, the older
entries of a user key and the deleted user keys, and shows what is left as an ordered map. Every
sequence of its calls, with any changes of direction, shows what a cursor over that map shows.

The sampling of reads for seek compactions in `ParseKey` does not touch the iterator and is left
out.
-/

import LevelDb.Format
import LevelDb.Lib.Cursor
import LevelDb.Lib.Newest
import LevelDb.Lib.Run

namespace LevelDb

variable {α β : Type}

/-! ### The internal iterator -/

/-- Where the internal iterator stands: the entries before it, nearest first, the entry it is at
and the entries after it. -/
structure Position (α β : Type) where
  front : List (Entry α β)
  entry : Entry α β
  back : List (Entry α β)

def Position.next (position : Position α β) : Option (Position α β) :=
  match position.back with
  | [] => none
  | entry :: back => some ⟨position.entry :: position.front, entry, back⟩

def Position.seekToFirst : List (Entry α β) → Option (Position α β)
  | [] => none
  | entry :: back => some ⟨[], entry, back⟩

def Position.seekToLast (entries : List (Entry α β)) : Option (Position α β) :=
  match entries.reverse with
  | [] => none
  | entry :: front => some ⟨front, entry, []⟩

variable [LinearOrder α]

/-- The first entry at or after the key; `front` are the entries passed. -/
def Position.seek (key : InternalKey α) (front : List (Entry α β)) :
    List (Entry α β) → Option (Position α β)
  | [] => none
  | entry :: back =>
    if key ≤ entry.key then some ⟨front, entry, back⟩ else seek key (entry :: front) back

/-! ### The iterator -/

inductive Direction
  | kForward
  | kReverse
  deriving DecidableEq, Repr

/-- The fields of `DBIter`. The internal iterator is `none` when it is not valid, a cleared
`saved_key_` or `saved_value_` is `none`, and `corrupt` is a status that is not OK. -/
structure DBIter (α β : Type) where
  iter : Option (Position α β)
  savedKey : Option α
  savedValue : Option β
  direction : Direction
  valid : Bool
  corrupt : Bool

def DBIter.new : DBIter α β := ⟨none, none, none, .kForward, false, false⟩

/-- `key()` and `value()` of a valid iterator. -/
def DBIter.current (iter : DBIter α β) : Option (α × β) :=
  if iter.valid then
    match iter.direction with
    | .kForward => iter.iter.map fun position => (position.entry.userKey, position.entry.value)
    | .kReverse => iter.savedKey.bind fun key => iter.savedValue.map fun value => (key, value)
  else none

/-- What `ParseKey` leaves in the status. -/
def DBIter.parseKey (iter : DBIter α β) (entry : Entry α β) : DBIter α β :=
  { iter with corrupt := iter.corrupt || (parseInternalKey entry.key).isNone }

/-- `ParseKey(&ikey) && ikey.sequence <= sequence_`. -/
def visibleKey (snapshot : Nat) (entry : Entry α β) : Option (ParsedInternalKey α) :=
  (parseInternalKey entry.key).filter fun parsed => parsed.sequence ≤ snapshot

/-- `FindNextUserEntry`, with the internal iterator at the head of the last argument. Every caller
passes `saved_key_` as the key to skip. -/
def findNextUserEntry (snapshot : Nat) : DBIter α β → Bool → List (Entry α β) →
    List (Entry α β) → DBIter α β
  | iter, _, _, [] => { iter with iter := none, savedKey := none, valid := false }
  | iter, skipping, front, entry :: back =>
    match visibleKey snapshot entry with
    | none => findNextUserEntry snapshot (iter.parseKey entry) skipping (entry :: front) back
    | some parsed =>
      match parsed.type with
      | .kTypeDeletion =>
        findNextUserEntry snapshot { iter.parseKey entry with savedKey := some parsed.userKey } true
          (entry :: front) back
      | .kTypeValue =>
        if skipping && iter.savedKey.any (fun skip => parsed.userKey ≤ skip) then
          findNextUserEntry snapshot (iter.parseKey entry) skipping (entry :: front) back
        else
          { iter.parseKey entry with
            iter := some ⟨front, entry, back⟩
            savedKey := none
            valid := true }

/-- The loop of `FindPrevUserEntry`, with the internal iterator at the head of the first list.
It returns the type of the last visible entry with the iterator. -/
def findPrevLoop (snapshot : Nat) : DBIter α β → ValueType → List (Entry α β) →
    List (Entry α β) → DBIter α β × ValueType
  | iter, valueType, [], _ => ({ iter with iter := none }, valueType)
  | iter, valueType, entry :: front, back =>
    match visibleKey snapshot entry with
    | none => findPrevLoop snapshot (iter.parseKey entry) valueType front (entry :: back)
    | some parsed =>
      if valueType ≠ .kTypeDeletion && iter.savedKey.any (fun saved => parsed.userKey < saved) then
        ({ iter.parseKey entry with iter := some ⟨front, entry, back⟩ }, valueType)
      else
        match parsed.type with
        | .kTypeDeletion =>
          findPrevLoop snapshot { iter.parseKey entry with savedKey := none, savedValue := none }
            .kTypeDeletion front (entry :: back)
        | .kTypeValue =>
          findPrevLoop snapshot
            { iter.parseKey entry with
              savedKey := some entry.userKey
              savedValue := some entry.value }
            .kTypeValue front (entry :: back)

def findPrevUserEntry (snapshot : Nat) (iter : DBIter α β) : DBIter α β :=
  let scanned := match iter.iter with
    | none => (iter, ValueType.kTypeDeletion)
    | some position =>
      findPrevLoop snapshot iter .kTypeDeletion (position.entry :: position.front) position.back
  if scanned.2 = .kTypeDeletion then
    { scanned.1 with
      valid := false
      savedKey := none
      savedValue := none
      direction := .kForward }
  else { scanned.1 with valid := true }

/-- The loop of `Prev` when it switches direction: back to the first entry with a smaller user
key. -/
def prevLoop (savedKey : α) : List (Entry α β) → List (Entry α β) → Option (Position α β)
  | [], _ => none
  | entry :: front, back =>
    if entry.userKey < savedKey then some ⟨front, entry, back⟩
    else prevLoop savedKey front (entry :: back)

namespace DBIter

/-- `Next`; it is called on a valid iterator, whose internal iterator is valid when it moves
forward. -/
def next (entries : List (Entry α β)) (snapshot : Nat) (iter : DBIter α β) : DBIter α β :=
  match iter.direction with
  | .kReverse =>
    let moved := match iter.iter with
      | none => Position.seekToFirst entries
      | some position => position.next
    match moved with
    | none => { iter with iter := none, direction := .kForward, valid := false, savedKey := none }
    | some position =>
      findNextUserEntry snapshot { iter with direction := .kForward } true position.front
        (position.entry :: position.back)
  | .kForward =>
    match iter.iter with
    | none => iter
    | some position =>
      findNextUserEntry snapshot { iter with savedKey := some position.entry.userKey } true
        position.front (position.entry :: position.back)

/-- `Prev`, called on a valid iterator. -/
def prev (snapshot : Nat) (iter : DBIter α β) : DBIter α β :=
  match iter.direction with
  | .kForward =>
    match iter.iter with
    | none => iter
    | some position =>
      match prevLoop position.entry.userKey position.front (position.entry :: position.back) with
      | none => { iter with iter := none, valid := false, savedKey := none, savedValue := none }
      | some before =>
        findPrevUserEntry snapshot
          { iter with
            iter := some before
            savedKey := some position.entry.userKey
            direction := .kReverse }
  | .kReverse => findPrevUserEntry snapshot iter

/-- `Seek`. The source keeps the encoded seek key in `saved_key_`, where it is never read as a
user key. -/
def seek (entries : List (Entry α β)) (snapshot : Nat) (iter : DBIter α β) (target : α) :
    DBIter α β :=
  let cleared := { iter with direction := .kForward, savedValue := none, savedKey := none }
  match Position.seek (InternalKey.make target snapshot kValueTypeForSeek) [] entries with
  | none => { cleared with iter := none, valid := false }
  | some position =>
    findNextUserEntry snapshot cleared false position.front (position.entry :: position.back)

def seekToFirst (entries : List (Entry α β)) (snapshot : Nat) (iter : DBIter α β) : DBIter α β :=
  let cleared := { iter with direction := .kForward, savedValue := none }
  match Position.seekToFirst entries with
  | none => { cleared with iter := none, valid := false }
  | some position =>
    findNextUserEntry snapshot cleared false position.front (position.entry :: position.back)

def seekToLast (entries : List (Entry α β)) (snapshot : Nat) (iter : DBIter α β) : DBIter α β :=
  findPrevUserEntry snapshot
    { iter with
      direction := .kReverse
      savedValue := none
      iter := Position.seekToLast entries }

/-- One call; `Next` and `Prev` assert that the iterator is valid. -/
def step (entries : List (Entry α β)) (snapshot : Nat) (iter : DBIter α β) :
    Lib.CursorCall α → Option (DBIter α β)
  | .seek target => some (iter.seek entries snapshot target)
  | .seekToFirst => some (iter.seekToFirst entries snapshot)
  | .seekToLast => some (iter.seekToLast entries snapshot)
  | .next => if iter.valid then some (iter.next entries snapshot) else none
  | .prev => if iter.valid then some (iter.prev snapshot) else none

end DBIter

/-! ### The visible map -/

/-- The entry parses and is not newer than the snapshot. -/
def Entry.Visible (snapshot : Nat) (entry : Entry α β) : Prop :=
  entry.Parses ∧ entry.sequence ≤ snapshot

instance (snapshot : Nat) (entry : Entry α β) : Decidable (entry.Visible snapshot) :=
  inferInstanceAs (Decidable (_ ∧ _))

/-- The entry is a value and the newest visible entry of its user key. -/
def Entry.Live (entries : List (Entry α β)) (snapshot : Nat) (entry : Entry α β) : Prop :=
  entry.Visible snapshot ∧ entry.IsValue ∧
    ∀ other ∈ entries, other.Visible snapshot → other.userKey = entry.userKey →
      entry.key ≤ other.key

instance (entries : List (Entry α β)) (snapshot : Nat) (entry : Entry α β) :
    Decidable (entry.Live entries snapshot) :=
  inferInstanceAs (Decidable (_ ∧ _ ∧ _))

def Entry.binding (entry : Entry α β) : α × β := (entry.userKey, entry.value)

/-- The ordered map from user key to the value of its newest visible entry, deleted user keys
left out. -/
def visibleMap (entries : List (Entry α β)) (snapshot : Nat) : List (α × β) :=
  (entries.filter fun entry => entry.Live entries snapshot).map Entry.binding

omit [LinearOrder α] in
/-- The three kinds of entry the loops tell apart. -/
theorem visibleKey_cases (snapshot : Nat) (entry : Entry α β) :
    (¬ entry.Visible snapshot ∧ visibleKey snapshot entry = none) ∨
    (entry.Visible snapshot ∧ ¬ entry.IsValue ∧
      visibleKey snapshot entry = some ⟨entry.userKey, entry.sequence, .kTypeDeletion⟩) ∨
    (entry.Visible snapshot ∧ entry.IsValue ∧
      visibleKey snapshot entry = some ⟨entry.userKey, entry.sequence, .kTypeValue⟩) := by
  unfold visibleKey Entry.Visible
  by_cases visible : entry.sequence ≤ snapshot
  · by_cases parses : entry.Parses
    · by_cases deletion : entry.IsDeletion
      · refine Or.inr (Or.inl ⟨⟨parses, visible⟩, fun isValue => ?_, ?_⟩)
        · exact absurd (isValue.symm.trans deletion) (by decide)
        · rw [deletion.parse, Option.filter_some_pos (by simpa using visible)]
      · refine Or.inr (Or.inr ⟨⟨parses, visible⟩, parses.isValue deletion, ?_⟩)
        rw [(parses.isValue deletion).parse, Option.filter_some_pos (by simpa using visible)]
    · refine Or.inl ⟨fun both => parses both.1, ?_⟩
      rw [parses_iff_parseInternalKey, Option.not_isSome_iff_eq_none] at parses
      rw [parses]
      rfl
  · refine Or.inl ⟨fun both => visible both.2, ?_⟩
    rw [Option.filter_eq_none_iff]
    intro parsed parse small
    rw [parseInternalKey_sequence parse, decide_eq_true_iff] at small
    exact visible small

/-! ### Scanning forward -/

/-- The iterator is valid, moves forward, and its internal iterator is at the entry. -/
def DBIter.ForwardAt (entries : List (Entry α β)) (entry : Entry α β) (iter : DBIter α β) : Prop :=
  iter.valid = true ∧ iter.direction = .kForward ∧ ∃ front back,
    iter.iter = some ⟨front, entry, back⟩ ∧ front.reverse ++ entry :: back = entries

/-- The iterator is at the entry that was found, if any. -/
def DBIter.ForwardFound (entries : List (Entry α β)) (found : Option (Entry α β))
    (iter : DBIter α β) : Prop :=
  match found with
  | none => iter.valid = false
  | some entry => iter.ForwardAt entries entry

/-- The user key up to which entries are skipped. -/
def DBIter.skipBound (iter : DBIter α β) (skipping : Bool) : Option α :=
  if skipping then iter.savedKey else none

/-- Where a scan may start: the visible entries ahead are not below the bound, and what a visible
entry behind hides ahead is at the bound. -/
structure ScanStart (snapshot : Nat) (bound : Option α) (front rest : List (Entry α β)) : Prop where
  ahead : ∀ skip ∈ bound, ∀ entry ∈ rest, entry.Visible snapshot → skip ≤ entry.userKey
  hidden : ∀ newer ∈ front, newer.Visible snapshot → ∀ entry ∈ rest, entry.Visible snapshot →
    entry.userKey = newer.userKey → bound = some entry.userKey

variable {snapshot : Nat} {entry : Entry α β} {front back : List (Entry α β)}

theorem ScanStart.tail_of_not_visible {bound : Option α}
    (start : ScanStart snapshot bound front (entry :: back))
    (notVisible : ¬ entry.Visible snapshot) : ScanStart snapshot bound (entry :: front) back := by
  refine ⟨fun skip isBound other member => start.ahead skip isBound other
    (List.mem_cons_of_mem _ member), fun newer newerMember newerVisible other member => ?_⟩
  rcases List.mem_cons.mp newerMember with rfl | inFront
  · exact absurd newerVisible notVisible
  · exact start.hidden newer inFront newerVisible other (List.mem_cons_of_mem _ member)

/-- Behind a visible entry the scan may go on with its user key as the bound. -/
theorem ScanStart.tail_of_visible {bound : Option α}
    (start : ScanStart snapshot bound front (entry :: back))
    (visible : entry.Visible snapshot) (sorted : Sorted (entry :: back)) :
    ScanStart snapshot (some entry.userKey) (entry :: front) back := by
  have later : ∀ other ∈ back, entry.userKey ≤ other.userKey := fun other member =>
    InternalKey.userKey_le_of_lt ((List.pairwise_cons.mp sorted).1 other member)
  refine ⟨fun skip isBound other member _ => ?_, fun newer newerMember newerVisible other member
    otherVisible same => ?_⟩
  · rw [← Option.some.inj isBound]
    exact later other member
  · rcases List.mem_cons.mp newerMember with rfl | inFront
    · rw [same]
    · have isBound := start.hidden newer inFront newerVisible other
        (List.mem_cons_of_mem _ member) otherVisible same
      have lower := start.ahead _ isBound entry List.mem_cons_self visible
      exact congrArg some (le_antisymm (later other member) lower)

/-- One iteration of `FindNextUserEntry`. -/
theorem findNextUserEntry_cons (snapshot : Nat) (iter : DBIter α β) (skipping : Bool)
    (front back : List (Entry α β)) (entry : Entry α β) :
    findNextUserEntry snapshot iter skipping front (entry :: back) =
      if entry.Visible snapshot then
        if entry.IsValue then
          if (iter.skipBound skipping).any (fun skip => entry.userKey ≤ skip) then
            findNextUserEntry snapshot (iter.parseKey entry) skipping (entry :: front) back
          else
            { iter.parseKey entry with
              iter := some ⟨front, entry, back⟩
              savedKey := none
              valid := true }
        else
          findNextUserEntry snapshot { iter.parseKey entry with savedKey := some entry.userKey } true
            (entry :: front) back
      else findNextUserEntry snapshot (iter.parseKey entry) skipping (entry :: front) back := by
  have bound : (iter.skipBound skipping).any (fun skip => decide (entry.userKey ≤ skip)) =
      (skipping && iter.savedKey.any fun skip => decide (entry.userKey ≤ skip)) := by
    cases skipping <;> rfl
  rw [bound]
  rcases visibleKey_cases snapshot entry with ⟨notVisible, parse⟩ | ⟨visible, notValue, parse⟩ |
    ⟨visible, isValue, parse⟩
  · rw [if_neg notVisible]
    simp only [findNextUserEntry, parse]
  · rw [if_pos visible, if_neg notValue]
    simp only [findNextUserEntry, parse]
  · rw [if_pos visible, if_pos isValue]
    simp only [findNextUserEntry, parse]

/-- A visible entry that no visible entry of its user key precedes is the newest one. -/
theorem Entry.live_of_first {entries front back : List (Entry α β)}
    (sorted : Sorted entries) (split : front.reverse ++ entry :: back = entries)
    (visible : entry.Visible snapshot) (isValue : entry.IsValue)
    (first : ∀ newer ∈ front, newer.Visible snapshot → newer.userKey ≠ entry.userKey) :
    entry.Live entries snapshot := by
  refine ⟨visible, isValue, fun other member otherVisible same => ?_⟩
  subst split
  rcases List.mem_append.mp member with before | after
  · exact absurd same (first other (List.mem_reverse.mp before) otherVisible)
  · exact head_le_of_sorted (List.pairwise_append.mp sorted).2.1 rfl other after

variable {entries : List (Entry α β)} {iter : DBIter α β}

/-- `FindNextUserEntry` finds the first live entry after the bound. -/
theorem findNextUserEntry_spec (sorted : Sorted entries)
    (snapshot : Nat) {front rest : List (Entry α β)} (split : front.reverse ++ rest = entries)
    (forward : iter.direction = .kForward) {skipping : Bool}
    (start : ScanStart snapshot (iter.skipBound skipping) front rest) :
    (findNextUserEntry snapshot iter skipping front rest).ForwardFound entries
      (rest.find? fun entry => entry.Live entries snapshot ∧
        ∀ skip ∈ iter.skipBound skipping, skip < entry.userKey) := by
  induction rest generalizing front iter skipping with
  | nil => rfl
  | cons entry back inductionHypothesis =>
    have splitNext : (entry :: front).reverse ++ back = entries := by
      rw [List.reverse_cons, List.append_assoc]
      exact split
    have restSorted : Sorted (entry :: back) := by
      rw [← split] at sorted
      exact (List.pairwise_append.mp sorted).2.1
    have inEntries : entry ∈ entries := by
      rw [← split]
      exact List.mem_append_right _ List.mem_cons_self
    have parsedForward : (iter.parseKey entry).direction = .kForward := forward
    rw [findNextUserEntry_cons]
    by_cases visible : entry.Visible snapshot
    · rw [if_pos visible]
      by_cases isValue : entry.IsValue
      · rw [if_pos isValue]
        split
        · rename_i isHidden
          obtain ⟨skip, isBound, hidden⟩ := (Option.any_eq_true _ _).mp isHidden
          have atBound : entry.userKey = skip := le_antisymm (by simpa using hidden)
            (start.ahead skip isBound entry List.mem_cons_self visible)
          have next : ScanStart snapshot ((iter.parseKey entry).skipBound skipping)
              (entry :: front) back := by
            show ScanStart snapshot (iter.skipBound skipping) (entry :: front) back
            rw [isBound, ← atBound]
            exact start.tail_of_visible visible restSorted
          rw [List.find?_cons_of_neg (by simpa using fun _ => ⟨skip, isBound, atBound.le⟩)]
          exact inductionHypothesis splitNext parsedForward next
        · rename_i notHidden
          have after : ∀ skip ∈ iter.skipBound skipping, skip < entry.userKey := by
            intro skip isBound
            by_contra notAfter
            refine notHidden ((Option.any_eq_true _ _).mpr ⟨skip, isBound, ?_⟩)
            simpa using notAfter
          have live : entry.Live entries snapshot := by
            refine Entry.live_of_first sorted split visible isValue fun newer inFront newerVisible
              same => ?_
            have isBound := start.hidden newer inFront newerVisible entry List.mem_cons_self visible
              same.symm
            exact lt_irrefl _ (after _ isBound)
          rw [List.find?_cons_of_pos (by simpa using ⟨live, after⟩)]
          exact ⟨rfl, forward, front, back, rfl, split⟩
      · rw [if_neg isValue]
        have notLive : ¬ entry.Live entries snapshot := fun live => isValue live.2.1
        set deleted := { iter.parseKey entry with savedKey := some entry.userKey }
        have next : ScanStart snapshot (deleted.skipBound true) (entry :: front) back :=
          start.tail_of_visible visible restSorted
        have found := inductionHypothesis splitNext
          (show deleted.direction = .kForward from forward) next
        have same : (back.find? fun other => decide (other.Live entries snapshot ∧
            ∀ skip ∈ deleted.skipBound true, skip < other.userKey)) =
              back.find? fun other => decide (other.Live entries snapshot ∧
                ∀ skip ∈ iter.skipBound skipping, skip < other.userKey) := by
          refine Lib.find?_congr_of_mem fun other member => decide_eq_decide.mpr ?_
          refine and_congr_right fun live => ?_
          have later := (List.pairwise_cons.mp restSorted).1 other member
          constructor
          · intro afterDeleted skip isBound
            exact (start.ahead skip isBound entry List.mem_cons_self visible).trans_lt
              (afterDeleted _ rfl)
          · intro _ skip isDeleted
            rw [← Option.some.inj isDeleted]
            refine lt_of_le_of_ne (InternalKey.userKey_le_of_lt later) fun sameKey => ?_
            exact absurd (live.2.2 entry inEntries visible sameKey) (not_le_of_gt later)
        rw [List.find?_cons_of_neg (by simp [notLive]), ← same]
        exact found
    · rw [if_neg visible]
      have notLive : ¬ entry.Live entries snapshot := fun live => visible live.1
      have next : ScanStart snapshot ((iter.parseKey entry).skipBound skipping) (entry :: front)
        back := start.tail_of_not_visible visible
      rw [List.find?_cons_of_neg (by simp [notLive])]
      exact inductionHypothesis splitNext parsedForward next

/-! ### Scanning backward -/

/-- The iterator is valid, moves backward, holds the binding of the entry, and its internal
iterator is before the entries of that user key: the entries of smaller user keys that it has
passed are not visible. -/
structure DBIter.ReverseAt (entries : List (Entry α β)) (snapshot : Nat) (entry : Entry α β)
    (iter : DBIter α β) : Prop where
  valid : iter.valid = true
  direction : iter.direction = .kReverse
  savedKey : iter.savedKey = some entry.userKey
  savedValue : iter.savedValue = some entry.value
  off : iter.iter = none → ∀ other ∈ entries, other.userKey < entry.userKey →
    ¬ other.Visible snapshot
  on : ∀ position, iter.iter = some position →
    position.front.reverse ++ position.entry :: position.back = entries ∧
      position.entry.userKey < entry.userKey ∧
      ∀ other ∈ position.back, other.userKey < entry.userKey → ¬ other.Visible snapshot

/-- What the loop of `FindPrevUserEntry` holds: the last visible entry it passed, unless that
entry is a deletion. -/
def DBIter.Holds (iter : DBIter α β) (valueType : ValueType) (held : Option (Entry α β)) : Prop :=
  match held with
  | none => valueType = .kTypeDeletion
  | some entry => valueType = .kTypeValue ∧ iter.savedKey = some entry.userKey ∧
      iter.savedValue = some entry.value

/-- One iteration of `FindPrevUserEntry`. -/
theorem findPrevLoop_cons (snapshot : Nat) (iter : DBIter α β) (valueType : ValueType)
    (front back : List (Entry α β)) (entry : Entry α β) :
    findPrevLoop snapshot iter valueType (entry :: front) back =
      if entry.Visible snapshot then
        if valueType ≠ .kTypeDeletion && iter.savedKey.any (fun saved => entry.userKey < saved) then
          ({ iter.parseKey entry with iter := some ⟨front, entry, back⟩ }, valueType)
        else if entry.IsValue then
          findPrevLoop snapshot
            { iter.parseKey entry with
              savedKey := some entry.userKey
              savedValue := some entry.value }
            .kTypeValue front (entry :: back)
        else
          findPrevLoop snapshot { iter.parseKey entry with savedKey := none, savedValue := none }
            .kTypeDeletion front (entry :: back)
      else findPrevLoop snapshot (iter.parseKey entry) valueType front (entry :: back) := by
  rcases visibleKey_cases snapshot entry with ⟨notVisible, parse⟩ | ⟨visible, notValue, parse⟩ |
    ⟨visible, isValue, parse⟩
  · rw [if_neg notVisible]
    simp only [findPrevLoop, parse]
  · rw [if_pos visible, if_neg notValue]
    simp only [findPrevLoop, parse]
  · rw [if_pos visible, if_pos isValue]
    simp only [findPrevLoop, parse]

/-- What `FindPrevUserEntry` makes of the loop's result: the entry found, with the iterator before
its user key, or nothing. -/
def FoundBefore (entries : List (Entry α β)) (snapshot : Nat) (found : Option (Entry α β))
    (scanned : DBIter α β × ValueType) : Prop :=
  match found with
  | none => scanned.2 = .kTypeDeletion
  | some entry => scanned.2 = .kTypeValue ∧
      { scanned.1 with valid := true }.ReverseAt entries snapshot entry

/-- The loop of `FindPrevUserEntry` finds the first live entry on its way back, where the entry it
holds is live if it comes to the end of that entry's user key. -/
theorem findPrevLoop_spec (sorted : Sorted entries) (snapshot : Nat)
    {before back : List (Entry α β)} (split : before.reverse ++ back = entries)
    (reverse : iter.direction = .kReverse) {valueType : ValueType}
    {held : Option (Entry α β)} (holds : iter.Holds valueType held)
    (heldVisible : ∀ entry ∈ held, entry.Visible snapshot ∧ entry.IsValue ∧ entry ∈ back ∧
      ∀ other ∈ back, other.Visible snapshot → entry.key ≤ other.key) :
    FoundBefore entries snapshot
      ((held.toList ++ before).find? fun entry => entry.Live entries snapshot)
      (findPrevLoop snapshot iter valueType before back) := by
  induction before generalizing back iter valueType held with
  | nil =>
    cases held with
    | none => exact holds
    | some entry =>
      obtain ⟨isType, savedKey, savedValue⟩ := holds
      obtain ⟨visible, isValue, _, first⟩ := heldVisible entry rfl
      rw [List.reverse_nil, List.nil_append] at split
      rw [split] at first
      have live : entry.Live entries snapshot :=
        ⟨visible, isValue, fun other member otherVisible _ => first other member otherVisible⟩
      rw [Option.toList_some, List.append_nil, List.find?_cons_of_pos (by simpa using live)]
      refine ⟨isType, rfl, reverse, savedKey, savedValue, fun _ other member less otherVisible => ?_,
        nofun⟩
      exact absurd (InternalKey.userKey_le_of_le (first other member otherVisible))
        (not_le_of_gt less)
  | cons entry front inductionHypothesis =>
    have splitNext : front.reverse ++ entry :: back = entries := by
      rw [List.reverse_cons, List.append_assoc] at split
      exact split
    have backSorted : Sorted (entry :: back) := by
      rw [← splitNext] at sorted
      exact (List.pairwise_append.mp sorted).2.1
    have later := (List.pairwise_cons.mp backSorted).1
    have inEntries : entry ∈ entries := by
      rw [← splitNext]
      exact List.mem_append_right _ List.mem_cons_self
    rw [findPrevLoop_cons]
    by_cases visible : entry.Visible snapshot
    · rw [if_pos visible]
      split
      · rename_i leaves
        cases held with
        | none =>
          rw [show valueType = .kTypeDeletion from holds] at leaves
          exact absurd leaves (by simp)
        | some found =>
          obtain ⟨isType, savedKey, savedValue⟩ := holds
          obtain ⟨foundVisible, isValue, _, first⟩ := heldVisible found rfl
          have less : entry.userKey < found.userKey := by
            rw [savedKey] at leaves
            simpa [isType] using leaves
          have live : found.Live entries snapshot := by
            refine ⟨foundVisible, isValue, fun other member otherVisible same => ?_⟩
            rw [← split] at member
            rcases List.mem_append.mp member with inFront | inBack
            · have early : other.key ≤ entry.key := by
                rw [← split] at sorted
                exact le_last_of_sorted (List.pairwise_append.mp sorted).1 (by simp) other inFront
              exact absurd same (ne_of_lt
                ((InternalKey.userKey_le_of_le early).trans_lt less))
            · exact first other inBack otherVisible
          rw [Option.toList_some, List.singleton_append,
            List.find?_cons_of_pos (by simpa using live)]
          refine ⟨isType, rfl, reverse, savedKey, savedValue, nofun, ?_⟩
          rintro position ⟨rfl⟩
          refine ⟨splitNext, less, fun other member otherLess otherVisible => ?_⟩
          exact absurd (InternalKey.userKey_le_of_le (first other member otherVisible))
            (not_le_of_gt otherLess)
      · rename_i stays
        have dropHeld : ((held.toList ++ entry :: front).find? fun other =>
            decide (other.Live entries snapshot)) =
              (entry :: front).find? fun other => decide (other.Live entries snapshot) := by
          cases held with
          | none => rfl
          | some found =>
            obtain ⟨isType, savedKey, _⟩ := holds
            obtain ⟨_, _, inBack, _⟩ := heldVisible found rfl
            have notLess : ¬ entry.userKey < found.userKey := by
              rw [savedKey] at stays
              simpa [isType] using stays
            have same : entry.userKey = found.userKey :=
              le_antisymm (InternalKey.userKey_le_of_lt (later found inBack)) (not_lt.mp notLess)
            have notLive : ¬ found.Live entries snapshot := fun live =>
              absurd (live.2.2 entry inEntries visible same) (not_le_of_gt (later found inBack))
            rw [Option.toList_some, List.singleton_append, List.find?_cons_of_neg (by simp [notLive])]
        rw [dropHeld]
        split
        · rename_i isValue
          set valued := { iter.parseKey entry with
            savedKey := some entry.userKey, savedValue := some entry.value }
          have holdsEntry : valued.Holds .kTypeValue (some entry) := ⟨rfl, rfl, rfl⟩
          refine inductionHypothesis splitNext (show valued.direction = .kReverse from reverse)
            holdsEntry ?_
          rintro other ⟨rfl⟩
          refine ⟨visible, isValue, List.mem_cons_self, fun other member _ => ?_⟩
          exact head_le_of_sorted backSorted rfl other member
        · rename_i notValue
          set cleared := { iter.parseKey entry with savedKey := none, savedValue := none }
          have holdsNone : cleared.Holds .kTypeDeletion none := rfl
          have notLive : ¬ entry.Live entries snapshot := fun live => notValue live.2.1
          rw [List.find?_cons_of_neg (by simp [notLive])]
          exact inductionHypothesis splitNext (show cleared.direction = .kReverse from reverse)
            holdsNone nofun
    · rw [if_neg visible]
      have notLive : ¬ entry.Live entries snapshot := fun live => visible live.1
      have dropEntry : ((held.toList ++ entry :: front).find? fun other =>
          decide (other.Live entries snapshot)) =
            (held.toList ++ front).find? fun other => decide (other.Live entries snapshot) := by
        rw [List.find?_append, List.find?_append, List.find?_cons_of_neg (by simp [notLive])]
      have parsedHolds : (iter.parseKey entry).Holds valueType held := holds
      rw [dropEntry]
      refine inductionHypothesis splitNext
        (show (iter.parseKey entry).direction = .kReverse from reverse) parsedHolds ?_
      intro found isHeld
      obtain ⟨foundVisible, isValue, inBack, first⟩ := heldVisible found isHeld
      refine ⟨foundVisible, isValue, List.mem_cons_of_mem _ inBack, fun other member otherVisible =>
        ?_⟩
      rcases List.mem_cons.mp member with rfl | inBack'
      · exact absurd otherVisible visible
      · exact first other inBack' otherVisible

/-! ### The calls -/

/-- The iterator stands on the entry, in either direction, or on nothing. -/
def DBIter.At (entries : List (Entry α β)) (snapshot : Nat) (iter : DBIter α β)
    (found : Option (Entry α β)) : Prop :=
  match found with
  | none => iter.valid = false
  | some entry => entry ∈ entries ∧ entry.Live entries snapshot ∧
      (iter.ForwardAt entries entry ∨ iter.ReverseAt entries snapshot entry)

variable {wanted : Entry α β → Prop}

/-- Skipping entries that are not wanted does not change a search forward. -/
theorem find_live_forward {entries front rest : List (Entry α β)}
    (split : front.reverse ++ rest = entries) [DecidablePred wanted]
    (passed : ∀ other ∈ front, other.Live entries snapshot → ¬ wanted other) :
    (entries.find? fun other => other.Live entries snapshot ∧ wanted other) =
      rest.find? fun other => other.Live entries snapshot ∧ wanted other := by
  conv_lhs => rw [← split, List.find?_append]
  have nothing : (front.reverse.find? fun other =>
      decide (other.Live (front.reverse ++ rest) snapshot ∧ wanted other)) = none := by
    refine List.find?_eq_none.mpr fun other member => ?_
    rw [split]
    simpa using passed other (List.mem_reverse.mp member)
  rw [nothing, Option.none_or, split]

/-- Skipping entries that are not wanted does not change a search backward. -/
theorem find_live_backward {entries before back : List (Entry α β)}
    (split : before.reverse ++ back = entries) [DecidablePred wanted]
    (passed : ∀ other ∈ back, other.Live entries snapshot → ¬ wanted other)
    (all : ∀ other ∈ before, wanted other) :
    (entries.reverse.find? fun other => other.Live entries snapshot ∧ wanted other) =
      before.find? fun other => other.Live entries snapshot := by
  have nothing : (back.reverse.find? fun other =>
      decide (other.Live entries snapshot ∧ wanted other)) = none := by
    refine List.find?_eq_none.mpr fun other member => ?_
    simpa using passed other (List.mem_reverse.mp member)
  have reversed : entries.reverse = back.reverse ++ before := by
    rw [← split, List.reverse_append, List.reverse_reverse]
  rw [reversed, List.find?_append, nothing, Option.none_or]
  refine Lib.find?_congr_of_mem fun other member => decide_eq_decide.mpr ?_
  exact and_iff_left (all other member)

/-- What a forward scan that started well stands on. -/
theorem findNextUserEntry_at (sorted : Sorted entries)
    {front rest : List (Entry α β)} (split : front.reverse ++ rest = entries)
    (forward : iter.direction = .kForward) {skipping : Bool}
    (start : ScanStart snapshot (iter.skipBound skipping) front rest)
    [DecidablePred wanted]
    (passed : ∀ other ∈ front, other.Live entries snapshot → ¬ wanted other)
    (bound : ∀ other ∈ rest, wanted other ↔ ∀ skip ∈ iter.skipBound skipping, skip < other.userKey) :
    (findNextUserEntry snapshot iter skipping front rest).At entries snapshot
      (entries.find? fun other => other.Live entries snapshot ∧ wanted other) := by
  have found := findNextUserEntry_spec sorted snapshot split forward start
  have same : (rest.find? fun other => decide (other.Live entries snapshot ∧
      ∀ skip ∈ iter.skipBound skipping, skip < other.userKey)) =
        rest.find? fun other => decide (other.Live entries snapshot ∧ wanted other) := by
    refine Lib.find?_congr_of_mem fun other member => decide_eq_decide.mpr ?_
    exact and_congr_right fun _ => (bound other member).symm
  rw [same] at found
  rw [find_live_forward split passed]
  cases isFound : rest.find? fun other =>
      decide (other.Live entries snapshot ∧ wanted other) with
  | none =>
    rw [isFound] at found
    exact found
  | some entry =>
    rw [isFound] at found
    have live : entry.Live entries snapshot ∧ wanted entry := by
      simpa using List.find?_some isFound
    have member : entry ∈ entries := by
      rw [← split]
      exact List.mem_append_right _ (List.mem_of_find?_eq_some isFound)
    exact ⟨member, live.1, Or.inl found⟩

/-- What a backward scan stands on. -/
theorem findPrevUserEntry_at (sorted : Sorted entries) (reverse : iter.direction = .kReverse)
    (isAt : iter.iter = some ⟨front, entry, back⟩) (split : front.reverse ++ entry :: back = entries)
    [DecidablePred wanted]
    (passed : ∀ other ∈ back, other.Live entries snapshot → ¬ wanted other)
    (all : ∀ other ∈ entry :: front, wanted other) :
    (findPrevUserEntry snapshot iter).At entries snapshot
      (entries.reverse.find? fun other => other.Live entries snapshot ∧ wanted other) := by
  have wholeSplit : (entry :: front).reverse ++ back = entries := by
    rw [List.reverse_cons, List.append_assoc]
    exact split
  have holds : iter.Holds .kTypeDeletion none := rfl
  have scanned := findPrevLoop_spec sorted snapshot wholeSplit reverse holds nofun
  rw [Option.toList_none, List.nil_append] at scanned
  rw [find_live_backward wholeSplit passed all]
  unfold findPrevUserEntry
  rw [isAt]
  simp only
  cases isFound : (entry :: front).find? fun other => decide (other.Live entries snapshot) with
  | none =>
    rw [isFound] at scanned
    have isType : (findPrevLoop snapshot iter .kTypeDeletion (entry :: front) back).2 =
      .kTypeDeletion := scanned
    rw [if_pos isType]
    rfl
  | some other =>
    rw [isFound] at scanned
    have live : other.Live entries snapshot := by simpa using List.find?_some isFound
    have member : other ∈ entries := by
      rw [← wholeSplit]
      exact List.mem_append_left _ (List.mem_reverse.mpr (List.mem_of_find?_eq_some isFound))
    rw [if_neg (by rw [scanned.1]; decide)]
    exact ⟨member, live, Or.inr scanned.2⟩

/-! ### The calls against the live entries -/

theorem seekToFirst_at (sorted : Sorted entries) (snapshot : Nat) (iter : DBIter α β) :
    (iter.seekToFirst entries snapshot).At entries snapshot
      (entries.find? fun other => other.Live entries snapshot ∧ True) := by
  unfold DBIter.seekToFirst
  cases entries with
  | nil => rfl
  | cons entry back =>
    have start : ScanStart snapshot none [] (entry :: back) := ⟨nofun, nofun⟩
    refine findNextUserEntry_at sorted rfl rfl start nofun fun other _ => ?_
    simp [DBIter.skipBound]

theorem seekToLast_at (sorted : Sorted entries) (snapshot : Nat) (iter : DBIter α β) :
    (iter.seekToLast entries snapshot).At entries snapshot
      (entries.reverse.find? fun other => other.Live entries snapshot ∧ True) := by
  unfold DBIter.seekToLast Position.seekToLast
  cases reversed : entries.reverse with
  | nil => rfl
  | cons entry front =>
    have split : front.reverse ++ [entry] = entries := by
      rw [← List.reverse_cons, ← reversed, List.reverse_reverse]
    simp only
    rw [← reversed]
    exact findPrevUserEntry_at sorted rfl rfl split nofun fun _ _ => trivial

/-- Where the internal seek stops. -/
theorem position_seek_some {key : InternalKey α} {front rest : List (Entry α β)}
    {position : Position α β} (found : Position.seek key front rest = some position) :
    position.front.reverse ++ position.entry :: position.back = front.reverse ++ rest ∧
      key ≤ position.entry.key ∧ ∀ entry ∈ position.front, entry ∈ front ∨ entry.key < key := by
  induction rest generalizing front with
  | nil => cases found
  | cons entry back inductionHypothesis =>
    rw [Position.seek] at found
    split at found
    · rename_i reached
      cases found
      exact ⟨rfl, reached, fun other member => Or.inl member⟩
    · rename_i notReached
      obtain ⟨equal, reached, passed⟩ := inductionHypothesis found
      refine ⟨equal.trans (by simp), reached, fun other member => ?_⟩
      rcases passed other member with inFront | less
      · rcases List.mem_cons.mp inFront with rfl | inside
        · exact Or.inr (not_le.mp notReached)
        · exact Or.inl inside
      · exact Or.inr less

theorem position_seek_none {key : InternalKey α} {front rest : List (Entry α β)}
    (nothing : Position.seek key front rest = none) : ∀ entry ∈ rest, entry.key < key := by
  induction rest generalizing front with
  | nil => exact fun entry member => absurd member List.not_mem_nil
  | cons entry back inductionHypothesis =>
    rw [Position.seek] at nothing
    split at nothing
    · cases nothing
    · rename_i notReached
      intro other member
      rcases List.mem_cons.mp member with rfl | inBack
      · exact not_le.mp notReached
      · exact inductionHypothesis nothing other inBack

/-- A visible entry before the seek key has a smaller user key than the target. -/
theorem userKey_lt_of_lt_seek {target : α} (visible : entry.Visible snapshot)
    (before : entry.key < InternalKey.make target snapshot kValueTypeForSeek) :
    entry.userKey < target := by
  by_contra notLess
  refine absurd before (not_lt_of_ge ((InternalKey.seek_le_iff visible.1).mpr ?_))
  rcases (not_lt.mp notLess).lt_or_eq with less | same
  · exact Or.inl less
  · exact Or.inr ⟨same, visible.2⟩

theorem seek_at (sorted : Sorted entries) (snapshot : Nat) (iter : DBIter α β) (target : α) :
    (iter.seek entries snapshot target).At entries snapshot
      (entries.find? fun other => other.Live entries snapshot ∧ target ≤ other.userKey) := by
  unfold DBIter.seek
  cases found : Position.seek (InternalKey.make target snapshot kValueTypeForSeek) [] entries with
  | none =>
    have nothing : (entries.find? fun other =>
        decide (other.Live entries snapshot ∧ target ≤ other.userKey)) = none := by
      refine List.find?_eq_none.mpr fun other member => ?_
      simpa using fun live => userKey_lt_of_lt_seek live.1 (position_seek_none found other member)
    rw [nothing]
    rfl
  | some position =>
    obtain ⟨split, reached, passed⟩ := position_seek_some found
    rw [List.reverse_nil, List.nil_append] at split
    have before : ∀ other ∈ position.front, other.Visible snapshot → other.userKey < target :=
      fun other member visible => userKey_lt_of_lt_seek visible
        ((passed other member).resolve_left List.not_mem_nil)
    have after : ∀ other ∈ position.entry :: position.back, target ≤ other.userKey := by
      intro other member
      rw [← split] at sorted
      exact (InternalKey.userKey_le_of_le reached).trans (InternalKey.userKey_le_of_le
        (head_le_of_sorted (List.pairwise_append.mp sorted).2.1 rfl other member))
    have start : ScanStart snapshot none position.front (position.entry :: position.back) := by
      refine ⟨nofun, fun newer newerMember newerVisible other member _ same => ?_⟩
      have less := (before newer newerMember newerVisible).trans_le (after other member)
      exact absurd same (ne_of_gt less)
    refine findNextUserEntry_at sorted split rfl start
      (fun other member live => not_le_of_gt (before other member live.1)) fun other member => ?_
    simpa [DBIter.skipBound] using after other member

/-- `Next` on an iterator that moves forward. -/
theorem next_at_forward (sorted : Sorted entries) (isAt : iter.ForwardAt entries entry) :
    (iter.next entries snapshot).At entries snapshot
      (entries.find? fun other => other.Live entries snapshot ∧ entry.userKey < other.userKey) := by
  obtain ⟨_, forward, front, back, position, split⟩ := isAt
  have order := sorted
  rw [← split] at order
  have after : ∀ other ∈ entry :: back, entry.userKey ≤ other.userKey := fun other member =>
    InternalKey.userKey_le_of_le (head_le_of_sorted (List.pairwise_append.mp order).2.1 rfl
      other member)
  have before : ∀ other ∈ front, other.userKey ≤ entry.userKey := fun other member =>
    InternalKey.userKey_le_of_lt ((List.pairwise_append.mp order).2.2 other
      (List.mem_reverse.mpr member) entry List.mem_cons_self)
  set saved := { iter with savedKey := some entry.userKey } with savedEq
  have moved : iter.next entries snapshot = findNextUserEntry snapshot saved true front
      (entry :: back) := by
    unfold DBIter.next
    simp only [forward, position, savedEq]
  have start : ScanStart snapshot (some entry.userKey) front (entry :: back) := by
    refine ⟨fun skip isBound other member _ => ?_, fun newer newerMember _ other member _ same => ?_⟩
    · rw [← Option.some.inj isBound]
      exact after other member
    · exact congrArg some (le_antisymm (after other member)
        (same.le.trans (before newer newerMember)))
  have bound : saved.skipBound true = some entry.userKey := rfl
  rw [moved]
  rw [← bound] at start
  refine findNextUserEntry_at sorted split (show saved.direction = .kForward from forward) start
    (fun other member _ => not_lt_of_ge (before other member)) fun other _ => ?_
  rw [bound]
  simp

/-- `Next` on an iterator that moves backward: it enters the entries of its user key and skips
them. -/
theorem next_at_reverse (sorted : Sorted entries) (member : entry ∈ entries)
    (isAt : iter.ReverseAt entries snapshot entry) :
    (iter.next entries snapshot).At entries snapshot
      (entries.find? fun other => other.Live entries snapshot ∧ entry.userKey < other.userKey) := by
  have bound : ({ iter with direction := .kForward } : DBIter α β).skipBound true =
      some entry.userKey := isAt.savedKey
  have wanted : ∀ other : Entry α β, entry.userKey < other.userKey ↔
      ∀ skip ∈ ({ iter with direction := .kForward } : DBIter α β).skipBound true,
        skip < other.userKey := by
    intro other
    rw [bound]
    simp
  cases position : iter.iter with
  | none =>
    cases entries with
    | nil => exact absurd member List.not_mem_nil
    | cons first back =>
      have moved : iter.next (first :: back) snapshot = findNextUserEntry snapshot
          { iter with direction := .kForward } true [] (first :: back) := by
        unfold DBIter.next
        simp only [isAt.direction, position, Position.seekToFirst]
      have start : ScanStart snapshot (some entry.userKey) [] (first :: back) := by
        refine ⟨fun skip isBound other inside visible => ?_, nofun⟩
        rw [← Option.some.inj isBound]
        by_contra notAbove
        exact isAt.off position other inside (not_le.mp notAbove) visible
      rw [moved]
      rw [← bound] at start
      exact findNextUserEntry_at sorted rfl rfl start nofun fun other _ => wanted other
  | some place =>
    obtain ⟨split, less, hidden⟩ := isAt.on place position
    have order := sorted
    rw [← split] at order
    have before : ∀ other ∈ place.entry :: place.front, other.userKey < entry.userKey := by
      intro other inFront
      rcases List.mem_cons.mp inFront with rfl | inside
      · exact less
      · exact (InternalKey.userKey_le_of_lt ((List.pairwise_append.mp order).2.2 other
          (List.mem_reverse.mpr inside) place.entry List.mem_cons_self)).trans_lt less
    cases isBack : place.back with
    | nil =>
      rw [isBack] at split
      rw [← split, ← List.reverse_cons, List.mem_reverse] at member
      exact absurd (before entry member) (lt_irrefl _)
    | cons next back =>
      rw [isBack] at split hidden
      have splitNext : (place.entry :: place.front).reverse ++ next :: back = entries := by
        rw [List.reverse_cons, List.append_assoc]
        exact split
      have start : ScanStart snapshot (some entry.userKey) (place.entry :: place.front)
          (next :: back) := by
        have above : ∀ other ∈ next :: back, other.Visible snapshot →
            entry.userKey ≤ other.userKey := by
          intro other inside visible
          by_contra notAbove
          exact hidden other inside (not_le.mp notAbove) visible
        refine ⟨fun skip isBound other inside visible => ?_,
          fun newer inFront _ other inside visible same => ?_⟩
        · rw [← Option.some.inj isBound]
          exact above other inside visible
        · exact absurd same (ne_of_gt ((before newer inFront).trans_le (above other inside visible)))
      have moved : iter.next entries snapshot = findNextUserEntry snapshot
          { iter with direction := .kForward } true (place.entry :: place.front) (next :: back) := by
        unfold DBIter.next
        simp only [isAt.direction, position, Position.next, isBack]
      rw [moved]
      rw [← bound] at start
      exact findNextUserEntry_at sorted splitNext rfl start
        (fun other inFront _ => not_lt_of_gt (before other inFront)) fun other _ => wanted other

/-- Where the loop of `Prev` stops when it switches direction. -/
theorem prevLoop_some {savedKey : α} {position : Position α β}
    (above : ∀ other ∈ back, savedKey ≤ other.userKey)
    (found : prevLoop savedKey front back = some position) :
    position.front.reverse ++ position.entry :: position.back = front.reverse ++ back ∧
      position.entry.userKey < savedKey ∧ ∀ other ∈ position.back, savedKey ≤ other.userKey := by
  induction front generalizing back with
  | nil => cases found
  | cons entry front inductionHypothesis =>
    rw [prevLoop] at found
    split at found
    · rename_i less
      cases found
      exact ⟨by simp, less, above⟩
    · rename_i notLess
      obtain ⟨equal, less, after⟩ := inductionHypothesis
        (List.forall_mem_cons.mpr ⟨not_lt.mp notLess, above⟩) found
      exact ⟨equal.trans (by simp), less, after⟩

theorem prevLoop_none {savedKey : α} (nothing : prevLoop savedKey front back = none) :
    ∀ other ∈ front, savedKey ≤ other.userKey := by
  induction front generalizing back with
  | nil => exact fun other member => absurd member List.not_mem_nil
  | cons entry front inductionHypothesis =>
    rw [prevLoop] at nothing
    split at nothing
    · cases nothing
    · rename_i notLess
      exact List.forall_mem_cons.mpr ⟨not_lt.mp notLess, inductionHypothesis nothing⟩

/-- `Prev` on an iterator that moves forward. -/
theorem prev_at_forward (sorted : Sorted entries) (isAt : iter.ForwardAt entries entry) :
    (iter.prev snapshot).At entries snapshot (entries.reverse.find? fun other =>
      other.Live entries snapshot ∧ other.userKey < entry.userKey) := by
  obtain ⟨_, forward, front, back, position, split⟩ := isAt
  have order := sorted
  rw [← split] at order
  have after : ∀ other ∈ entry :: back, entry.userKey ≤ other.userKey := fun other member =>
    InternalKey.userKey_le_of_le (head_le_of_sorted (List.pairwise_append.mp order).2.1 rfl
      other member)
  unfold DBIter.prev
  rw [forward, position]
  simp only
  cases found : prevLoop entry.userKey front (entry :: back) with
  | none =>
    have nothing : (entries.reverse.find? fun other =>
        decide (other.Live entries snapshot ∧ other.userKey < entry.userKey)) = none := by
      refine List.find?_eq_none.mpr fun other member => ?_
      rw [List.mem_reverse, ← split] at member
      have above : entry.userKey ≤ other.userKey := by
        rcases List.mem_append.mp member with inFront | inBack
        · exact prevLoop_none found other (List.mem_reverse.mp inFront)
        · exact after other inBack
      simpa using fun _ => above
    rw [nothing]
    rfl
  | some before =>
    obtain ⟨equal, less, above⟩ := prevLoop_some after found
    have beforeSplit := equal.trans split
    have early : ∀ other ∈ before.entry :: before.front, other.userKey < entry.userKey := by
      intro other member
      rcases List.mem_cons.mp member with rfl | inFront
      · exact less
      · rw [← beforeSplit] at sorted
        exact (InternalKey.userKey_le_of_lt ((List.pairwise_append.mp sorted).2.2 other
          (List.mem_reverse.mpr inFront) before.entry List.mem_cons_self)).trans_lt less
    exact findPrevUserEntry_at sorted rfl rfl beforeSplit
      (fun other member _ => not_lt_of_ge (above other member)) early

/-- `Prev` on an iterator that moves backward. -/
theorem prev_at_reverse (sorted : Sorted entries) (isAt : iter.ReverseAt entries snapshot entry) :
    (iter.prev snapshot).At entries snapshot (entries.reverse.find? fun other =>
      other.Live entries snapshot ∧ other.userKey < entry.userKey) := by
  unfold DBIter.prev
  rw [isAt.direction]
  simp only
  cases position : iter.iter with
  | none =>
    have nothing : (entries.reverse.find? fun other =>
        decide (other.Live entries snapshot ∧ other.userKey < entry.userKey)) = none := by
      refine List.find?_eq_none.mpr fun other member => ?_
      simp only [decide_eq_true_eq]
      rintro ⟨live, less⟩
      exact isAt.off position other (List.mem_reverse.mp member) less live.1
    rw [nothing]
    unfold findPrevUserEntry
    rw [position]
    rfl
  | some place =>
    obtain ⟨split, less, hidden⟩ := isAt.on place position
    have early : ∀ other ∈ place.entry :: place.front, other.userKey < entry.userKey := by
      intro other member
      rcases List.mem_cons.mp member with rfl | inFront
      · exact less
      · rw [← split] at sorted
        exact (InternalKey.userKey_le_of_lt ((List.pairwise_append.mp sorted).2.2 other
          (List.mem_reverse.mpr inFront) place.entry List.mem_cons_self)).trans_lt less
    exact findPrevUserEntry_at sorted isAt.direction position split
      (fun other member live below => hidden other member below live.1) early

/-! ### Refinement -/

/-- What the iterator shows is the binding of the entry it stands on. -/
theorem DBIter.At.current_eq {found : Option (Entry α β)} (isAt : iter.At entries snapshot found) :
    iter.current = found.map Entry.binding := by
  unfold DBIter.current
  cases found with
  | none =>
    rw [show iter.valid = false from isAt]
    rfl
  | some entry =>
    obtain ⟨_, _, ⟨valid, forward, front, back, position, _⟩ | reverse⟩ := isAt
    · rw [valid, forward, position]
      rfl
    · rw [reverse.valid, reverse.direction, reverse.savedKey, reverse.savedValue]
      rfl

/-- The iterator stands where the cursor stands. -/
def DBIter.Follows (entries : List (Entry α β)) (snapshot : Nat) (iter : DBIter α β)
    (cursor : Option (α × β)) : Prop :=
  ∃ found, iter.At entries snapshot found ∧ cursor = found.map Entry.binding

/-- A search in the visible map is a search among the live entries. -/
theorem find_visibleMap (entries : List (Entry α β)) (snapshot : Nat) (wanted : α → Prop)
    [DecidablePred wanted] :
    ((visibleMap entries snapshot).find? fun binding => wanted binding.1) =
      (entries.find? fun entry => entry.Live entries snapshot ∧ wanted entry.userKey).map
        Entry.binding := by
  unfold visibleMap
  rw [List.find?_map, List.find?_filter]
  refine congrArg (Option.map Entry.binding) (congrArg (List.find? · _) (funext fun entry => ?_))
  exact decide_eq_decide.mpr (and_congr decide_eq_true_iff decide_eq_true_iff)

theorem find_reverse_visibleMap (entries : List (Entry α β)) (snapshot : Nat) (wanted : α → Prop)
    [DecidablePred wanted] :
    ((visibleMap entries snapshot).reverse.find? fun binding => wanted binding.1) =
      (entries.reverse.find? fun entry => entry.Live entries snapshot ∧ wanted entry.userKey).map
        Entry.binding := by
  unfold visibleMap
  rw [← List.map_reverse, ← List.filter_reverse, List.find?_map, List.find?_filter]
  refine congrArg (Option.map Entry.binding) (congrArg (List.find? · _) (funext fun entry => ?_))
  exact decide_eq_decide.mpr (and_congr decide_eq_true_iff decide_eq_true_iff)

/-- Every call keeps the iterator where the cursor is. -/
theorem DBIter.Follows.step {entries : List (Entry α β)} (sorted : Sorted entries) {snapshot : Nat}
    {iter : DBIter α β} {cursor : Option (α × β)} (follows : iter.Follows entries snapshot cursor)
    (call : Lib.CursorCall α) :
    Option.Rel (DBIter.Follows entries snapshot) (iter.step entries snapshot call)
      (Lib.cursorStep (visibleMap entries snapshot) cursor call) := by
  obtain ⟨found, isAt, rfl⟩ := follows
  cases call with
  | seek target =>
    refine Option.Rel.some ⟨_, seek_at sorted snapshot iter target, ?_⟩
    exact find_visibleMap entries snapshot fun userKey => target ≤ userKey
  | seekToFirst =>
    refine Option.Rel.some ⟨_, seekToFirst_at sorted snapshot iter, ?_⟩
    rw [← find_visibleMap entries snapshot fun _ => True]
    cases visibleMap entries snapshot <;> rfl
  | seekToLast =>
    refine Option.Rel.some ⟨_, seekToLast_at sorted snapshot iter, ?_⟩
    rw [← find_reverse_visibleMap entries snapshot fun _ => True, List.getLast?_eq_head?_reverse]
    cases (visibleMap entries snapshot).reverse <;> rfl
  | next =>
    cases found with
    | none =>
      rw [DBIter.step, show iter.valid = false from isAt]
      exact Option.Rel.none
    | some entry =>
      obtain ⟨member, _, standing⟩ := isAt
      have valid : iter.valid = true := standing.elim (fun forward => forward.1)
        fun reverse => reverse.valid
      rw [DBIter.step, if_pos valid]
      refine Option.Rel.some ⟨_, ?_, find_visibleMap entries snapshot
        fun userKey => entry.userKey < userKey⟩
      rcases standing with forward | reverse
      · exact next_at_forward sorted forward
      · exact next_at_reverse sorted member reverse
  | prev =>
    cases found with
    | none =>
      rw [DBIter.step, show iter.valid = false from isAt]
      exact Option.Rel.none
    | some entry =>
      obtain ⟨_, _, standing⟩ := isAt
      have valid : iter.valid = true := standing.elim (fun forward => forward.1)
        fun reverse => reverse.valid
      rw [DBIter.step, if_pos valid]
      refine Option.Rel.some ⟨_, ?_, find_reverse_visibleMap entries snapshot
        fun userKey => userKey < entry.userKey⟩
      rcases standing with forward | reverse
      · exact prev_at_forward sorted forward
      · exact prev_at_reverse sorted reverse

/-- The bindings of the visible map: each user key with the value of its newest entry at the
snapshot, when that entry is not a deletion. -/
theorem mem_visibleMap_iff (parses : ∀ entry ∈ entries, entry.Parses)
    (unique : ∀ first ∈ entries, ∀ second ∈ entries, first.userKey = second.userKey →
      first.sequence = second.sequence → first = second) {userKey : α} {value : β} :
    (userKey, value) ∈ visibleMap entries snapshot ↔
      ∃ entry, Lib.IsNewest Entry.userKey Entry.sequence {entry | entry ∈ entries} userKey snapshot
        entry ∧ entry.IsValue ∧ entry.value = value := by
  constructor
  · intro member
    obtain ⟨entry, inLive, isBinding⟩ := List.mem_map.mp member
    obtain ⟨inEntries, isLive⟩ := List.mem_filter.mp inLive
    have live : entry.Live entries snapshot := by simpa using isLive
    cases isBinding
    refine ⟨entry, ⟨inEntries, rfl, live.1.2, fun other inside same visible => ?_⟩, live.2.1, rfl⟩
    exact InternalKey.sequence_le_of_le (live.2.2 other inside ⟨parses other inside, visible⟩ same)
      same.symm
  · rintro ⟨entry, ⟨inEntries, rfl, visible, greatest⟩, isValue, rfl⟩
    refine List.mem_map.mpr ⟨entry, List.mem_filter.mpr ⟨inEntries, ?_⟩, rfl⟩
    have live : entry.Live entries snapshot := by
      refine ⟨⟨parses entry inEntries, visible⟩, isValue, fun other inside otherVisible same => ?_⟩
      by_contra notLe
      have newer := InternalKey.sequence_le_of_le (not_le.mp notLe).le same
      have equal : other.sequence = entry.sequence :=
        le_antisymm (greatest other inside same otherVisible.2) newer
      rw [unique other inside entry inEntries same equal] at notLe
      exact notLe le_rfl
    simpa using live

/-- The iterator is a cursor over the visible map: along every list of calls it shows what the
cursor shows, and refuses to move on exactly when the cursor does. -/
theorem dbIter_trace_eq (entries : List (Entry α β)) (sorted : Sorted entries) (snapshot : Nat)
    (calls : List (Lib.CursorCall α)) :
    Lib.trace (DBIter.step entries snapshot) DBIter.current DBIter.new calls =
      Lib.trace (Lib.cursorStep (visibleMap entries snapshot)) id none calls := by
  have start : DBIter.new.Follows entries snapshot none := ⟨none, rfl, rfl⟩
  have simulates : ∀ iter cursor call, DBIter.Follows entries snapshot iter cursor →
      Option.Rel (DBIter.Follows entries snapshot) (iter.step entries snapshot call)
        (Lib.cursorStep (visibleMap entries snapshot) cursor call) :=
    fun _ _ call follows => follows.step sorted call
  refine Lib.trace_eq (fun iter cursor follows => ?_) simulates start calls
  obtain ⟨found, isAt, rfl⟩ := follows
  exact isAt.current_eq

/-- User key 1 has two visible versions, user key 2 a deletion over a value and a version newer
than snapshot 5, and user keys 3 and 5 only such versions. -/
def versionedEntries : List (Entry Nat Nat) :=
  [⟨InternalKey.make 1 9 .kTypeValue, 19⟩, ⟨InternalKey.make 1 3 .kTypeValue, 13⟩,
    ⟨InternalKey.make 1 1 .kTypeValue, 11⟩, ⟨InternalKey.make 2 8 .kTypeValue, 28⟩,
    ⟨InternalKey.make 2 4 .kTypeDeletion, 0⟩, ⟨InternalKey.make 2 2 .kTypeValue, 22⟩,
    ⟨InternalKey.make 3 9 .kTypeValue, 39⟩, ⟨InternalKey.make 4 1 .kTypeValue, 41⟩,
    ⟨InternalKey.make 5 9 .kTypeValue, 59⟩]

theorem dbIter_trace_eq_versioned :
    Lib.trace (DBIter.step versionedEntries 5) DBIter.current DBIter.new
        [.seekToFirst, .next, .prev, .next, .next, .seekToLast, .prev, .next, .seek 2, .prev] =
      some [some (1, 13), some (4, 41), some (1, 13), some (4, 41), none, some (4, 41),
        some (1, 13), some (4, 41), some (4, 41), some (1, 13)] := by
  rw [dbIter_trace_eq versionedEntries (by decide) 5]
  decide

end LevelDb
