/-
This file models the internal key format of `db/dbformat`: an internal key is a user key
followed by a 64-bit tag that packs a sequence number and a value type. Internal keys are
ordered by increasing user key and, for one user key, by decreasing tag, so that newer
entries come first.

User keys are an arbitrary linearly ordered type: the order is the user comparator. Values
are an arbitrary type.
-/

import Mathlib.Tactic

namespace LevelDb

namespace Config

def kNumLevels : Nat := 7

def kL0CompactionTrigger : Nat := 4

def kL0SlowdownWritesTrigger : Nat := 16

def kL0StopWritesTrigger : Nat := 64

def kMaxMemCompactLevel : Nat := 2

end Config

/-- Value types encoded as the last component of internal keys. -/
inductive ValueType
  | kTypeDeletion
  | kTypeValue
  deriving DecidableEq, Repr

/-- The byte a value type is stored as. -/
def ValueType.code : ValueType → Nat
  | .kTypeDeletion => 0
  | .kTypeValue => 1

/-- The type a seek key carries: the highest-numbered one, since tags sort in decreasing
order. -/
def kValueTypeForSeek : ValueType := .kTypeValue

def kMaxSequenceNumber : Nat := 2 ^ 56 - 1

/-- `(seq << 8) | t`. -/
def packSequenceAndType (sequence : Nat) (type : ValueType) : Nat :=
  sequence * 256 + type.code

/-- An internal key of at least eight bytes: the user key and the tag in its last eight
bytes. The low byte of the tag need not be a value type. -/
structure InternalKey (α : Type) where
  userKey : α
  tag : Nat
  deriving DecidableEq, Repr

structure ParsedInternalKey (α : Type) where
  userKey : α
  sequence : Nat
  type : ValueType
  deriving DecidableEq, Repr

variable {α β : Type}

namespace InternalKey

/-- The key that `AppendInternalKey` encodes. -/
def make (userKey : α) (sequence : Nat) (type : ValueType) : InternalKey α :=
  ⟨userKey, packSequenceAndType sequence type⟩

/-- `num >> 8`. -/
def sequence (key : InternalKey α) : Nat := key.tag / 256

/-- `num & 0xff`. -/
def typeByte (key : InternalKey α) : Nat := key.tag % 256

end InternalKey

/-- `ParseInternalKey`: fails exactly when the low byte of the tag is above `kTypeValue`. -/
def parseInternalKey (key : InternalKey α) : Option (ParsedInternalKey α) :=
  match key.typeByte with
  | 0 => some ⟨key.userKey, key.sequence, .kTypeDeletion⟩
  | 1 => some ⟨key.userKey, key.sequence, .kTypeValue⟩
  | _ => none

@[simp] theorem InternalKey.make_userKey (userKey : α) (sequence : Nat) (type : ValueType) :
    (InternalKey.make userKey sequence type).userKey = userKey := rfl

@[simp] theorem InternalKey.make_sequence (userKey : α) (sequence : Nat) (type : ValueType) :
    (InternalKey.make userKey sequence type).sequence = sequence := by
  cases type <;>
    simp only [InternalKey.make, InternalKey.sequence, packSequenceAndType, ValueType.code] <;>
    omega

@[simp] theorem InternalKey.make_typeByte (userKey : α) (sequence : Nat) (type : ValueType) :
    (InternalKey.make userKey sequence type).typeByte = type.code := by
  cases type <;>
    simp only [InternalKey.make, InternalKey.typeByte, packSequenceAndType, ValueType.code] <;>
    omega

@[simp] theorem parseInternalKey_make (userKey : α) (sequence : Nat) (type : ValueType) :
    parseInternalKey (InternalKey.make userKey sequence type) =
      some ⟨userKey, sequence, type⟩ := by
  cases type <;> simp [parseInternalKey, ValueType.code]

theorem parseInternalKey_userKey {key : InternalKey α} {parsed : ParsedInternalKey α}
    (parse : parseInternalKey key = some parsed) : parsed.userKey = key.userKey := by
  unfold parseInternalKey at parse
  split at parse <;> cases parse <;> rfl

theorem parseInternalKey_sequence {key : InternalKey α} {parsed : ParsedInternalKey α}
    (parse : parseInternalKey key = some parsed) : parsed.sequence = key.sequence := by
  unfold parseInternalKey at parse
  split at parse <;> cases parse <;> rfl

theorem parseInternalKey_type {key : InternalKey α} {parsed : ParsedInternalKey α}
    (parse : parseInternalKey key = some parsed) : parsed.type.code = key.typeByte := by
  unfold parseInternalKey at parse
  split at parse
  · rename_i byte
    cases parse
    exact byte.symm
  · rename_i byte
    cases parse
    exact byte.symm
  · cases parse

/-! ### The order of `InternalKeyComparator` -/

section Order

variable [LinearOrder α]

/-- `InternalKeyComparator::Compare`. -/
def InternalKeyComparator.compare (first second : InternalKey α) : Ordering :=
  match Ord.compare first.userKey second.userKey with
  | .eq =>
    if first.tag > second.tag then .lt
    else if first.tag < second.tag then .gt
    else .eq
  | order => order

instance : LE (InternalKey α) where
  le first second :=
    first.userKey < second.userKey ∨ first.userKey = second.userKey ∧ second.tag ≤ first.tag

instance : LT (InternalKey α) where
  lt first second :=
    first.userKey < second.userKey ∨ first.userKey = second.userKey ∧ second.tag < first.tag

theorem InternalKey.le_def {first second : InternalKey α} :
    first ≤ second ↔
      first.userKey < second.userKey ∨
        first.userKey = second.userKey ∧ second.tag ≤ first.tag := Iff.rfl

theorem InternalKey.lt_def {first second : InternalKey α} :
    first < second ↔
      first.userKey < second.userKey ∨
        first.userKey = second.userKey ∧ second.tag < first.tag := Iff.rfl

instance InternalKey.decidableLE : DecidableLE (InternalKey α) := fun first second =>
  inferInstanceAs (Decidable (first.userKey < second.userKey ∨
    first.userKey = second.userKey ∧ second.tag ≤ first.tag))

instance InternalKey.decidableLT : DecidableLT (InternalKey α) := fun first second =>
  inferInstanceAs (Decidable (first.userKey < second.userKey ∨
    first.userKey = second.userKey ∧ second.tag < first.tag))

instance : LinearOrder (InternalKey α) where
  le_refl key := Or.inr ⟨rfl, le_rfl⟩
  le_trans first second third := by
    rintro (less | ⟨same, tag⟩) (less' | ⟨same', tag'⟩)
    · exact Or.inl (less.trans less')
    · exact Or.inl (same' ▸ less)
    · exact Or.inl (same ▸ less')
    · exact Or.inr ⟨same.trans same', tag'.trans tag⟩
  le_antisymm first second := by
    rintro (less | ⟨same, tag⟩) (less' | ⟨same', tag'⟩)
    · exact absurd less' (not_lt_of_gt less)
    · exact absurd same' (ne_of_gt less)
    · exact absurd same (ne_of_gt less')
    · obtain ⟨userKey, firstTag⟩ := first
      obtain ⟨userKey', secondTag⟩ := second
      exact congrArg₂ InternalKey.mk same (le_antisymm tag' tag)
  le_total first second := by
    rcases lt_trichotomy first.userKey second.userKey with less | same | greater
    · exact Or.inl (Or.inl less)
    · rcases le_total second.tag first.tag with tag | tag
      · exact Or.inl (Or.inr ⟨same, tag⟩)
      · exact Or.inr (Or.inr ⟨same.symm, tag⟩)
    · exact Or.inr (Or.inl greater)
  lt_iff_le_not_ge first second := by
    rw [InternalKey.lt_def, InternalKey.le_def, InternalKey.le_def]
    constructor
    · rintro (less | ⟨same, tag⟩)
      · exact ⟨Or.inl less, by
          rintro (less' | ⟨same', _⟩)
          · exact lt_asymm less less'
          · exact ne_of_gt less same'⟩
      · exact ⟨Or.inr ⟨same, le_of_lt tag⟩, by
          rintro (less' | ⟨_, tag'⟩)
          · exact ne_of_gt less' same
          · exact not_lt_of_ge tag' tag⟩
    · rintro ⟨less | ⟨same, tag⟩, other⟩
      · exact Or.inl less
      · refine Or.inr ⟨same, lt_of_not_ge fun tag' => other (Or.inr ⟨same.symm, tag'⟩)⟩
  toDecidableLE := InternalKey.decidableLE
  toDecidableLT := InternalKey.decidableLT
  toDecidableEq := inferInstance

/-- The comparator and the order agree: the model writes `first < second` where the source
writes `icmp.Compare(first, second) < 0`. -/
theorem InternalKeyComparator.compare_eq_lt {first second : InternalKey α} :
    InternalKeyComparator.compare first second = .lt ↔ first < second := by
  rw [InternalKey.lt_def]
  unfold InternalKeyComparator.compare
  rcases lt_trichotomy first.userKey second.userKey with less | same | greater
  · rw [compare_lt_iff_lt.mpr less]
    simp [less]
  · rw [same, compare_eq_iff_eq.mpr rfl]
    by_cases tag : second.tag < first.tag
    · simp [tag]
    · by_cases tag' : first.tag < second.tag <;> simp [tag, tag']
  · rw [compare_gt_iff_gt.mpr greater]
    simp [not_lt_of_gt greater, ne_of_gt greater]

theorem InternalKey.userKey_le_of_le {first second : InternalKey α} (order : first ≤ second) :
    first.userKey ≤ second.userKey := by
  rcases order with less | ⟨same, _⟩
  · exact le_of_lt less
  · exact le_of_eq same

theorem InternalKey.userKey_le_of_lt {first second : InternalKey α} (order : first < second) :
    first.userKey ≤ second.userKey := InternalKey.userKey_le_of_le (le_of_lt order)

theorem InternalKey.lt_of_userKey_lt {first second : InternalKey α}
    (order : first.userKey < second.userKey) : first < second := Or.inl order

theorem InternalKey.sequence_le_of_le {first second : InternalKey α} (order : first ≤ second)
    (same : first.userKey = second.userKey) : second.sequence ≤ first.sequence := by
  rcases order with less | ⟨_, tag⟩
  · exact absurd same (ne_of_lt less)
  · exact Nat.div_le_div_right tag

/-- The seek key for `(userKey, sequence)` sorts at or before exactly the parsable keys of
that user key with a sequence at most the given one, and before the keys of larger user
keys. -/
theorem InternalKey.seek_le_iff {userKey : α} {sequence : Nat} {key : InternalKey α}
    (parses : key.typeByte ≤ 1) :
    InternalKey.make userKey sequence kValueTypeForSeek ≤ key ↔
      userKey < key.userKey ∨ userKey = key.userKey ∧ key.sequence ≤ sequence := by
  rw [InternalKey.le_def]
  simp only [InternalKey.make, packSequenceAndType, kValueTypeForSeek, ValueType.code,
    InternalKey.sequence]
  unfold InternalKey.typeByte at parses
  constructor
  · rintro (less | ⟨same, tag⟩)
    · exact Or.inl less
    · exact Or.inr ⟨same, by omega⟩
  · rintro (less | ⟨same, tag⟩)
    · exact Or.inl less
    · exact Or.inr ⟨same, by omega⟩

end Order

/-! ### Entries -/

/-- One entry of a memtable or a table file. -/
structure Entry (α β : Type) where
  key : InternalKey α
  value : β
  deriving DecidableEq, Repr

namespace Entry

def userKey (entry : Entry α β) : α := entry.key.userKey

def sequence (entry : Entry α β) : Nat := entry.key.sequence

/-- The entry parses as a live value. -/
def IsValue (entry : Entry α β) : Prop := entry.key.typeByte = ValueType.kTypeValue.code

/-- The entry parses as a deletion. -/
def IsDeletion (entry : Entry α β) : Prop := entry.key.typeByte = ValueType.kTypeDeletion.code

/-- The internal key of the entry parses. -/
def Parses (entry : Entry α β) : Prop := entry.key.typeByte ≤ ValueType.kTypeValue.code

instance (entry : Entry α β) : Decidable entry.IsValue :=
  inferInstanceAs (Decidable (entry.key.typeByte = 1))

instance (entry : Entry α β) : Decidable entry.IsDeletion :=
  inferInstanceAs (Decidable (entry.key.typeByte = 0))

instance (entry : Entry α β) : Decidable entry.Parses :=
  inferInstanceAs (Decidable (entry.key.typeByte ≤ 1))

theorem Parses.isValue {entry : Entry α β} (parses : entry.Parses)
    (notDeletion : ¬ entry.IsDeletion) : entry.IsValue := by
  simp only [Parses, IsDeletion, IsValue, ValueType.code] at *
  omega

end Entry

theorem parses_iff_parseInternalKey (entry : Entry α β) :
    entry.Parses ↔ (parseInternalKey entry.key).isSome := by
  unfold Entry.Parses parseInternalKey ValueType.code
  rcases entry.key.typeByte with _ | _ | rest
  · simp
  · simp
  · simp

theorem Entry.IsValue.parse {entry : Entry α β} (isValue : entry.IsValue) :
    parseInternalKey entry.key = some ⟨entry.userKey, entry.sequence, .kTypeValue⟩ := by
  unfold parseInternalKey
  rw [show entry.key.typeByte = 1 from isValue]
  rfl

theorem Entry.IsDeletion.parse {entry : Entry α β} (isDeletion : entry.IsDeletion) :
    parseInternalKey entry.key = some ⟨entry.userKey, entry.sequence, .kTypeDeletion⟩ := by
  unfold parseInternalKey
  rw [show entry.key.typeByte = 0 from isDeletion]
  rfl

/-- Entries are sorted when their internal keys strictly increase. -/
abbrev Sorted [LinearOrder α] (entries : List (Entry α β)) : Prop :=
  entries.Pairwise fun first second => first.key < second.key

theorem head_le_of_sorted [LinearOrder α] {entries : List (Entry α β)} (sorted : Sorted entries)
    {first : Entry α β} (head : entries.head? = some first) :
    ∀ entry ∈ entries, first.key ≤ entry.key := by
  cases entries with
  | nil => cases head
  | cons entry rest =>
    cases head
    intro other member
    rcases List.mem_cons.mp member with rfl | tail
    · exact le_rfl
    · exact le_of_lt ((List.pairwise_cons.mp sorted).1 other tail)

theorem le_last_of_sorted [LinearOrder α] {entries : List (Entry α β)} (sorted : Sorted entries)
    {last : Entry α β} (getLast : entries.getLast? = some last) :
    ∀ entry ∈ entries, entry.key ≤ last.key := by
  obtain ⟨front, rfl⟩ := List.getLast?_eq_some_iff.mp getLast
  intro entry member
  rcases List.mem_append.mp member with inFront | isLast
  · exact le_of_lt ((List.pairwise_append.mp sorted).2.2 entry inFront last
      (List.mem_singleton.mpr rfl))
  · exact le_of_eq (List.mem_singleton.mp isLast ▸ rfl)

/-- A seek in sorted entries finds the least entry at or after the key. -/
theorem find_seek_eq_some [LinearOrder α] {entries : List (Entry α β)} (sorted : Sorted entries)
    {key : InternalKey α} {entry : Entry α β} :
    (entries.find? fun other => key ≤ other.key) = some entry ↔
      entry ∈ entries ∧ key ≤ entry.key ∧
        ∀ other ∈ entries, key ≤ other.key → entry.key ≤ other.key := by
  induction entries with
  | nil => simp
  | cons head rest inductionHypothesis =>
    obtain ⟨less, restSorted⟩ := List.pairwise_cons.mp sorted
    by_cases reached : key ≤ head.key
    · rw [List.find?_cons_of_pos (by simpa using reached), Option.some.injEq]
      constructor
      · rintro rfl
        refine ⟨List.mem_cons_self, reached, fun other member _ => ?_⟩
        rcases List.mem_cons.mp member with rfl | tail
        · exact le_rfl
        · exact (less other tail).le
      · rintro ⟨member, _, least⟩
        rcases List.mem_cons.mp member with same | tail
        · exact same.symm
        · exact absurd (least head List.mem_cons_self reached) (not_le_of_gt (less entry tail))
    · rw [List.find?_cons_of_neg (by simpa using reached), inductionHypothesis restSorted]
      constructor
      · rintro ⟨member, after, least⟩
        refine ⟨List.mem_cons_of_mem _ member, after, fun other inside otherAfter => ?_⟩
        rcases List.mem_cons.mp inside with rfl | tail
        · exact absurd otherAfter reached
        · exact least other tail otherAfter
      · rintro ⟨member, after, least⟩
        refine ⟨?_, after, fun other tail => least other (List.mem_cons_of_mem _ tail)⟩
        rcases List.mem_cons.mp member with rfl | tail
        · exact absurd after reached
        · exact tail

end LevelDb
