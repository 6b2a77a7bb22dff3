/-
This file follows internal keys down to their bytes: `AppendInternalKey`, `ParseInternalKey`,
`InternalKeyComparator::Compare` and the buffer of a `LookupKey`. Over every user comparator that is
a total order, the bytes are totally ordered too, by user key, then by decreasing sequence number,
then by decreasing type, and agree with the keys of the rest of the development.
-/

import LevelDb.ByteKeys
import LevelDb.Get
import LevelDb.Varints

namespace LevelDb

/-! ### The codec -/

/-- `AppendInternalKey`. -/
def appendInternalKey (result : Bytes) (key : ParsedInternalKey Bytes) : Bytes :=
  result ++ key.userKey ++ encodeFixed64 (packSequenceAndType key.sequence key.type)

/-- `ParseInternalKey`. -/
def parseEncodedKey (internalKey : Bytes) : Option (ParsedInternalKey Bytes) :=
  let n := internalKey.length
  if n < 8 then none
  else
    let num := decodeFixed64 (internalKey.drop (n - 8))
    let userKey := internalKey.take (n - 8)
    match num &&& 0xff with
    | 0 => some ⟨userKey, num >>> 8, .kTypeDeletion⟩
    | 1 => some ⟨userKey, num >>> 8, .kTypeValue⟩
    | _ => none

theorem parseEncodedKey_of_short {key : Bytes} (short : ¬ IsLong key) :
    parseEncodedKey key = none := if_pos (Nat.lt_of_not_le short)

/-- On keys with a tag the bytes parse as the key that they decode to. -/
theorem parseEncodedKey_eq {key : Bytes} (isLong : IsLong key) :
    parseEncodedKey key = (parseInternalKey (InternalKey.decodeFrom key)).map fun parsed =>
      ⟨parsed.userKey.bytes, parsed.sequence, parsed.type⟩ := by
  have low : decodeFixed64 (key.drop (key.length - 8)) &&& 0xff =
      (InternalKey.decodeFrom key).typeByte := Nat.and_two_pow_sub_one_eq_mod _ 8
  have high : decodeFixed64 (key.drop (key.length - 8)) >>> 8 =
      (InternalKey.decodeFrom key).sequence := Nat.shiftRight_eq_div_pow _ 8
  unfold parseEncodedKey parseInternalKey
  dsimp only
  rw [if_neg (Nat.not_lt.mpr isLong), low, high]
  rcases (InternalKey.decodeFrom key).typeByte with _ | _ | rest <;> rfl

theorem packSequenceAndType_lt {sequence : Nat} (bound : sequence ≤ kMaxSequenceNumber)
    (type : ValueType) : packSequenceAndType sequence type < 2 ^ 64 := by
  have small : type.code ≤ 1 := by cases type <;> decide
  unfold packSequenceAndType
  unfold kMaxSequenceNumber at bound
  omega

theorem appendInternalKey_nil (key : ParsedInternalKey Bytes) :
    appendInternalKey [] key =
      (InternalKey.make (UserKey.mk key.userKey) key.sequence key.type).encode := rfl

theorem appendInternalKey_isLong (key : ParsedInternalKey Bytes) :
    IsLong (appendInternalKey [] key) := by
  rw [IsLong, appendInternalKey, List.length_append, length_encodeFixed64]
  exact Nat.le_add_left _ _

theorem drop_appendInternalKey (result : Bytes) (key : ParsedInternalKey Bytes) :
    (appendInternalKey result key).drop result.length = appendInternalKey [] key := by
  rw [appendInternalKey, List.append_assoc, List.drop_left]
  rfl

/-- What was appended is parsed again. -/
theorem parseEncodedKey_append {key : ParsedInternalKey Bytes}
    (bound : key.sequence ≤ kMaxSequenceNumber) :
    parseEncodedKey (appendInternalKey [] key) = some key := by
  rw [parseEncodedKey_eq (appendInternalKey_isLong key), appendInternalKey_nil,
    InternalKey.decodeFrom_encode (packSequenceAndType_lt bound key.type), parseInternalKey_make,
    Option.map_some]

/-- The parts of a key that parses. -/
theorem parts_of_parseEncodedKey {key : Bytes} {parsed : ParsedInternalKey Bytes}
    (parses : parseEncodedKey key = some parsed) :
    IsLong key ∧ parsed.userKey = key.take (key.length - 8) ∧
      storedTag key = packSequenceAndType parsed.sequence parsed.type := by
  have isLong : IsLong key := by
    by_contra short
    rw [parseEncodedKey_of_short short] at parses
    cases parses
  rw [parseEncodedKey_eq isLong, Option.map_eq_some_iff] at parses
  obtain ⟨inner, isInner, rfl⟩ := parses
  refine ⟨isLong, congrArg UserKey.bytes (parseInternalKey_userKey isInner), ?_⟩
  dsimp only
  rw [packSequenceAndType, parseInternalKey_sequence isInner, parseInternalKey_type isInner,
    InternalKey.sequence, InternalKey.typeByte]
  exact (Nat.div_add_mod' _ 256).symm

/-! ### The order -/

/-- Byte strings with a tag at the end. -/
abbrev EncodedKey := { key : Bytes // IsLong key }

namespace EncodedKey

def userKey (key : EncodedKey) : Bytes := key.1.take (key.1.length - 8)

/-- `num >> 8`. -/
def sequence (key : EncodedKey) : Nat := storedTag key.1 >>> 8

/-- `num & 0xff`. -/
def typeByte (key : EncodedKey) : Nat := storedTag key.1 &&& 0xff

theorem storedTag_eq (key : EncodedKey) : storedTag key.1 = key.sequence * 256 + key.typeByte := by
  rw [sequence, typeByte, Nat.shiftRight_eq_div_pow, Nat.and_two_pow_sub_one_eq_mod _ 8]
  exact (Nat.div_add_mod' _ _).symm

theorem typeByte_lt (key : EncodedKey) : key.typeByte < 256 := by
  rw [typeByte, Nat.and_two_pow_sub_one_eq_mod _ 8]
  exact Nat.mod_lt _ (by decide)

/-- The packed tags are compared as a whole: first by their sequence numbers, then by their
types. -/
theorem storedTag_lt_iff (first second : EncodedKey) :
    storedTag second.1 < storedTag first.1 ↔
      second.sequence < first.sequence ∨
        second.sequence = first.sequence ∧ second.typeByte < first.typeByte := by
  have firstSmall := first.typeByte_lt
  have secondSmall := second.typeByte_lt
  rw [storedTag_eq, storedTag_eq]
  omega

/-- `InternalKeyComparator::Compare` of keys with a tag. -/
def compare (user : Bytes → Bytes → Ordering) (first second : EncodedKey) : Ordering :=
  (compareKeys user first.1 second.1).get (compareKeys_isSome user first.2 second.2)

variable {user : Bytes → Bytes → Ordering}

theorem compareKeys_eq_compare (first second : EncodedKey) :
    compareKeys user first.1 second.1 = some (compare user first second) :=
  (Option.some_get _).symm

theorem compare_eq (first second : EncodedKey) :
    compare user first second =
      (user first.userKey second.userKey).then
        (Ord.compare (storedTag second.1) (storedTag first.1)) :=
  Option.some.inj ((compareKeys_eq_compare first second).symm.trans
    (compareKeys_eq first.2 second.2))

theorem compare_transCmp [Std.TransCmp user] : Std.TransCmp (compare user) := by
  have userKeys := @transCmp_comap EncodedKey Bytes user _ userKey
  have tags := @transCmp_comap EncodedKey Nat (fun first second => Ord.compare second first) _
    fun key => storedTag key.1
  have lexicographic : compare user =
      compareLex (fun first second => user first.userKey second.userKey)
        (fun first second => Ord.compare (storedTag second.1) (storedTag first.1)) :=
    funext fun first => funext fun second => compare_eq first second
  rw [lexicographic]
  exact inferInstance

theorem compare_lawfulEqCmp [Std.LawfulEqCmp user] : Std.LawfulEqCmp (compare user) where
  compare_self {key} := by
    have reflexive : user key.userKey key.userKey = .eq := Std.ReflCmp.compare_self
    rw [compare_eq, reflexive, Ordering.eq_then, compare_eq_iff_eq.mpr rfl]
  eq_of_compare {first second} same := by
    rw [compare_eq, Ordering.then_eq_eq] at same
    exact Subtype.ext (InternalKeyComparator.eq_of_parts first.2 second.2
      (Std.LawfulEqCmp.eq_of_compare same.1) (compare_eq_iff_eq.mp same.2).symm)

/-- Keys are in order by increasing user key, decreasing sequence number, decreasing type. -/
theorem compare_eq_lt_iff [Std.LawfulEqCmp user] (first second : EncodedKey) :
    compare user first second = .lt ↔
      user first.userKey second.userKey = .lt ∨
        first.userKey = second.userKey ∧
          (second.sequence < first.sequence ∨
            second.sequence = first.sequence ∧ second.typeByte < first.typeByte) := by
  rw [compare_eq, Ordering.then_eq_lt, compare_lt_iff_lt, storedTag_lt_iff,
    Std.LawfulEqCmp.compare_eq_iff_eq]

/-- Where the order of user keys is the comparator's, this is the order of internal keys. -/
theorem compare_eq_compare_decodeFrom [LinearOrder UserKey] (first second : EncodedKey) :
    compare (fun first second => Ord.compare (UserKey.mk first) (UserKey.mk second)) first second =
      InternalKeyComparator.compare (InternalKey.decodeFrom first.1)
        (InternalKey.decodeFrom second.1) := by
  rw [compare_eq]
  unfold InternalKeyComparator.compare
  change (Ord.compare (InternalKey.decodeFrom first.1).userKey
    (InternalKey.decodeFrom second.1).userKey).then _ = _
  cases Ord.compare (InternalKey.decodeFrom first.1).userKey
    (InternalKey.decodeFrom second.1).userKey with
  | lt => rfl
  | gt => rfl
  | eq =>
    change Ord.compare (storedTag second.1) (storedTag first.1) =
      if storedTag second.1 < storedTag first.1 then Ordering.lt
      else if storedTag first.1 < storedTag second.1 then Ordering.gt else Ordering.eq
    rcases lt_trichotomy (storedTag second.1) (storedTag first.1) with less | same | greater
    · rw [if_pos less, compare_lt_iff_lt.mpr less]
    · rw [if_neg same.not_lt, if_neg same.not_gt, compare_eq_iff_eq.mpr same]
    · rw [if_neg (lt_asymm greater), if_pos greater, compare_gt_iff_gt.mpr greater]

end EncodedKey

/-! ### Lookups -/

/-- What a `LookupKey` holds: its bytes from `start_` to `end_`, and where the internal key
starts. -/
structure LookupBuffer where
  bytes : Bytes
  kstart : Nat

namespace LookupBuffer

/-- The constructor of `LookupKey`. -/
def new (userKey : Bytes) (sequence : Nat) : LookupBuffer :=
  let length := encodeVarint32 ((userKey.length % 2 ^ 32 + 8) % 2 ^ 32)
  ⟨length ++ userKey ++ encodeFixed64 (packSequenceAndType sequence kValueTypeForSeek),
    length.length⟩

/-- `memtable_key`. -/
def memtableKey (lookup : LookupBuffer) : Bytes := lookup.bytes

/-- `internal_key`. -/
def internalKey (lookup : LookupBuffer) : Bytes := lookup.bytes.drop lookup.kstart

theorem internalKey_new (userKey : Bytes) (sequence : Nat) :
    (new userKey sequence).internalKey =
      appendInternalKey [] ⟨userKey, sequence, kValueTypeForSeek⟩ := by
  rw [internalKey, new, List.append_assoc, List.drop_left]
  rfl

/-- The buffer holds the encoding of the key that a lookup seeks. -/
theorem internalKey_new_eq_encode (lookup : LookupKey UserKey) :
    (new lookup.userKey.bytes lookup.sequence).internalKey = lookup.internalKey.encode :=
  internalKey_new _ _

/-- The constructor stays inside the thirteen bytes it allows for next to the user key. -/
theorem length_new_le (userKey : Bytes) (sequence : Nat) :
    (new userKey sequence).bytes.length ≤ userKey.length + 13 := by
  have header := length_encodeVarint32
    (Nat.mod_lt (userKey.length % 2 ^ 32 + 8) (by decide : 0 < 2 ^ 32))
  rw [new, List.length_append, List.length_append, length_encodeFixed64, header.1]
  omega

/-- The key for a memtable is the internal key behind its length. -/
theorem memtableKey_new {userKey : Bytes} (fits : userKey.length + 8 < 2 ^ 32) (sequence : Nat) :
    (new userKey sequence).memtableKey =
      putLengthPrefixedSlice (new userKey sequence).internalKey := by
  have length : (new userKey sequence).internalKey.length = userKey.length + 8 := by
    rw [internalKey_new, appendInternalKey, List.length_append, length_encodeFixed64]
    rfl
  rw [putLengthPrefixedSlice, length, internalKey_new, memtableKey, new,
    Nat.mod_eq_of_lt (show userKey.length < 2 ^ 32 by omega), List.append_assoc]
  rfl

/-- The internal key of a lookup is at or before exactly the entries of its user key that its
sequence number sees. -/
theorem isLE_internalKey_iff {user : Bytes → Bytes → Ordering} [Std.ReflCmp user]
    {userKey key : Bytes} {sequence : Nat} {entry : ParsedInternalKey Bytes}
    (bound : sequence ≤ kMaxSequenceNumber) (parses : parseEncodedKey key = some entry)
    (same : entry.userKey = userKey) :
    ∃ result, compareKeys user (new userKey sequence).internalKey key = some result ∧
      (result.isLE ↔ entry.sequence ≤ sequence) := by
  obtain ⟨isLong, isUserKey, tag⟩ := parts_of_parseEncodedKey parses
  have lookupParses := @parseEncodedKey_append ⟨userKey, sequence, kValueTypeForSeek⟩ bound
  obtain ⟨lookupLong, isLookupKey, lookupTag⟩ := parts_of_parseEncodedKey lookupParses
  have small : entry.type.code ≤ kValueTypeForSeek.code := by cases entry.type <;> decide
  refine ⟨_, by rw [internalKey_new]; exact compareKeys_eq lookupLong isLong, ?_⟩
  have reflexive : user userKey userKey = .eq := Std.ReflCmp.compare_self
  rw [← isLookupKey, ← isUserKey, same, reflexive, Ordering.eq_then, Nat.isLE_compare, tag,
    lookupTag, packSequenceAndType, packSequenceAndType]
  dsimp only [kValueTypeForSeek, ValueType.code] at small ⊢
  omega

end LookupBuffer

/-! ### Internal keys -/

/-- Over a totally ordered user comparator: `Compare` is a total order of encoded internal keys, by
user key, then decreasing sequence number, then decreasing type; `ParseInternalKey` undoes
`AppendInternalKey`; and a lookup starts at exactly the entries that its snapshot sees. -/
theorem internalKeys_ordered (user : Bytes → Bytes → Ordering) [Std.TransCmp user]
    [Std.LawfulEqCmp user] :
    (∀ first second : EncodedKey,
      compareKeys user first.1 second.1 = some (EncodedKey.compare user first second)) ∧
    (Std.TransCmp (EncodedKey.compare user) ∧ Std.LawfulEqCmp (EncodedKey.compare user)) ∧
    (∀ first second : EncodedKey, EncodedKey.compare user first second = .lt ↔
      user first.userKey second.userKey = .lt ∨
        first.userKey = second.userKey ∧
          (second.sequence < first.sequence ∨
            second.sequence = first.sequence ∧ second.typeByte < first.typeByte)) ∧
    (∀ result (key : ParsedInternalKey Bytes), key.sequence ≤ kMaxSequenceNumber →
      parseEncodedKey ((appendInternalKey result key).drop result.length) = some key) ∧
    ∀ userKey sequence key (entry : ParsedInternalKey Bytes), sequence ≤ kMaxSequenceNumber →
      parseEncodedKey key = some entry → entry.userKey = userKey →
        ∃ result,
          compareKeys user (LookupBuffer.new userKey sequence).internalKey key = some result ∧
          (result.isLE ↔ entry.sequence ≤ sequence) := by
  refine ⟨EncodedKey.compareKeys_eq_compare,
    ⟨EncodedKey.compare_transCmp, EncodedKey.compare_lawfulEqCmp⟩, EncodedKey.compare_eq_lt_iff,
    ?_, ?_⟩
  · intro result key bound
    rw [drop_appendInternalKey]
    exact parseEncodedKey_append bound
  · intro userKey sequence key entry bound parses same
    exact LookupBuffer.isLE_internalKey_iff bound parses same

/-- With bytewise user keys, the value `foo` written at 100 is seen at the snapshot 100. -/
theorem internalKeys_ordered_foo :
    ∃ result,
      compareKeys BytewiseComparator.compare
        (LookupBuffer.new [0x66, 0x6f, 0x6f] 100).internalKey
        (appendInternalKey [] ⟨[0x66, 0x6f, 0x6f], 100, .kTypeValue⟩) = some result ∧
      (result.isLE ↔ 100 ≤ 100) :=
  (internalKeys_ordered BytewiseComparator.compare).2.2.2.2 _ 100 _
    ⟨[0x66, 0x6f, 0x6f], 100, .kTypeValue⟩ (by decide) (by decide +kernel) rfl

end LevelDb
