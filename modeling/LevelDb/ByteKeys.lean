/-
This file models the keys of tables as bytes: `Slice::compare`, the comparator of
`util/comparator`, which orders byte strings and shortens them, and the shortening of internal
keys in `db/dbformat`, which shortens the user key and gives it the tag that sorts first.
-/

import LevelDb.ManifestKeys
import LevelDb.Sst.TableLayout

namespace LevelDb

/-! ### Byte strings -/

/-- `memcmp` of the first bytes of two strings that are long enough. -/
def memcmp : Nat → Bytes → Bytes → Ordering
  | count + 1, first :: firstRest, second :: secondRest =>
    if first < second then .lt
    else if second < first then .gt
    else memcmp count firstRest secondRest
  | _, _, _ => .eq

namespace BytewiseComparator

/-- `Compare`, which is `Slice::compare`. -/
def compare (first second : Bytes) : Ordering :=
  let minLength := if first.length < second.length then first.length else second.length
  match memcmp minLength first second with
  | .eq =>
    if first.length < second.length then .lt
    else if second.length < first.length then .gt
    else .eq
  | order => order

/-- The loop that finds the length of the common prefix. -/
def diffIndex : Nat → Bytes → Bytes → Nat
  | minLength + 1, first :: firstRest, second :: secondRest =>
    if first = second then diffIndex minLength firstRest secondRest + 1 else 0
  | _, _, _ => 0

/-- `FindShortestSeparator`. -/
def findShortestSeparator (start limit : Bytes) : Bytes :=
  let minLength := min start.length limit.length
  let diff := diffIndex minLength start limit
  if minLength ≤ diff then start
  else
    match start[diff]?, limit[diff]? with
    | some diffByte, some limitByte =>
      if diffByte < 0xff ∧ diffByte.toNat + 1 < limitByte.toNat then
        (start.set diff (diffByte + 1)).take (diff + 1)
      else start
    | _, _ => start

/-- `FindShortSuccessor`. -/
def findShortSuccessor : Bytes → Bytes
  | [] => []
  | byte :: rest => if byte ≠ 0xff then [byte + 1] else byte :: findShortSuccessor rest

end BytewiseComparator

/-- `BytewiseComparator()`. -/
def bytewiseComparator : Sst.Comparator where
  compare := BytewiseComparator.compare
  findShortestSeparator := BytewiseComparator.findShortestSeparator
  findShortSuccessor := BytewiseComparator.findShortSuccessor

namespace BytewiseComparator

theorem compare_cons_cons (first second : UInt8) (firstRest secondRest : Bytes) :
    compare (first :: firstRest) (second :: secondRest) =
      if first < second then .lt else if second < first then .gt
      else compare firstRest secondRest := by
  have lengths : (if (first :: firstRest).length < (second :: secondRest).length
        then (first :: firstRest).length else (second :: secondRest).length) =
      (if firstRest.length < secondRest.length then firstRest.length
        else secondRest.length) + 1 := by
    simp only [List.length_cons, Nat.add_lt_add_iff_right]
    split <;> rfl
  unfold compare
  rw [lengths]
  simp only [memcmp, List.length_cons, Nat.add_lt_add_iff_right]
  by_cases less : first < second
  · simp only [if_pos less]
  · by_cases greater : second < first
    · simp only [if_neg less, if_pos greater]
    · simp only [if_neg less, if_neg greater]

/-- The order of the comparator is the lexicographic one. -/
theorem compare_eq (first second : Bytes) : compare first second = Ord.compare first second := by
  induction first generalizing second with
  | nil => cases second <;> rfl
  | cons byte rest inductionHypothesis =>
    cases second with
    | nil => rfl
    | cons other others =>
      rw [compare_cons_cons, List.compare_cons_cons, inductionHypothesis]
      change _ = (compareOfLessAndEq byte other).then _
      rw [compareOfLessAndEq]
      by_cases less : byte < other
      · rw [if_pos less, if_pos less, Ordering.lt_then]
      · by_cases same : byte = other
        · rw [if_neg less, if_neg less, if_pos same, same, if_neg (UInt8.lt_irrefl other),
            Ordering.eq_then]
        · have greater : other < byte :=
            UInt8.lt_of_le_of_ne (UInt8.not_lt.mp less) (Ne.symm same)
          rw [if_neg less, if_neg less, if_neg same, if_pos greater, Ordering.gt_then]

instance : Std.TransCmp compare := by
  have same : compare = Ord.compare := funext₂ compare_eq
  rw [same]
  infer_instance

instance : Std.LawfulEqCmp compare := by
  have same : compare = Ord.compare := funext₂ compare_eq
  rw [same]
  infer_instance

theorem compare_append (front first second : Bytes) :
    compare (front ++ first) (front ++ second) = compare first second := by
  induction front with
  | nil => rfl
  | cons byte rest inductionHypothesis =>
    rw [List.cons_append, List.cons_append, compare_cons_cons, if_neg (UInt8.lt_irrefl byte),
      if_neg (UInt8.lt_irrefl byte), inductionHypothesis]

theorem compare_of_head_lt {first second : UInt8} (less : first < second)
    (firstRest secondRest : Bytes) :
    compare (first :: firstRest) (second :: secondRest) = .lt := by
  rw [compare_cons_cons, if_pos less]

/-- The strings agree in front of the index that is found, and differ at it if they both reach
it. -/
theorem diffIndex_spec (start limit : Bytes) :
    let diff := diffIndex (min start.length limit.length) start limit
    diff ≤ min start.length limit.length ∧ start.take diff = limit.take diff := by
  induction start generalizing limit with
  | nil => simp [diffIndex]
  | cons byte rest inductionHypothesis =>
    cases limit with
    | nil => simp [diffIndex]
    | cons other others =>
      obtain ⟨bound, agree⟩ := inductionHypothesis others
      simp only [List.length_cons, Nat.add_min_add_right, diffIndex]
      split
      · next same =>
        subst same
        exact ⟨Nat.succ_le_succ bound, by rw [List.take_succ_cons, List.take_succ_cons, agree]⟩
      · exact ⟨Nat.zero_le _, rfl⟩

/-- A separator is its start, or it cuts the start behind a common prefix and increments the
byte there, which stays below the byte of the limit. -/
theorem findShortestSeparator_cases (start limit : Bytes) :
    findShortestSeparator start limit = start ∨
      ∃ front byte other startRest limitRest, start = front ++ byte :: startRest ∧
        limit = front ++ other :: limitRest ∧ byte.toNat + 1 < other.toNat ∧
        findShortestSeparator start limit = front ++ [byte + 1] := by
  obtain ⟨bound, agree⟩ := diffIndex_spec start limit
  unfold findShortestSeparator
  dsimp only at bound agree ⊢
  generalize diffIndex (min start.length limit.length) start limit = diff at bound agree ⊢
  split
  · exact Or.inl rfl
  · next inside =>
    have startInside : diff < start.length := by omega
    have limitInside : diff < limit.length := by omega
    rw [List.getElem?_eq_getElem startInside, List.getElem?_eq_getElem limitInside]
    dsimp only
    split
    · next room =>
      refine Or.inr ⟨start.take diff, start[diff], limit[diff], start.drop (diff + 1),
        limit.drop (diff + 1), ?_, ?_, room.2, ?_⟩
      · rw [List.getElem_cons_drop, List.take_append_drop]
      · rw [agree, List.getElem_cons_drop, List.take_append_drop]
      · rw [List.take_succ_eq_append_getElem (by rwa [List.length_set]), List.getElem_set_self,
          List.take_set_of_le le_rfl]
    · exact Or.inl rfl

theorem toNat_succ {byte : UInt8} (room : byte.toNat + 1 < 2 ^ 8) :
    (byte + 1).toNat = byte.toNat + 1 := by
  rw [UInt8.toNat_add]
  exact Nat.mod_eq_of_lt room

/-- A separator of two keys in order is at or after the first and before the second. -/
theorem findShortestSeparator_between {start limit : Bytes} (order : compare start limit = .lt) :
    (compare start (findShortestSeparator start limit)).isLE ∧
      compare (findShortestSeparator start limit) limit = .lt := by
  rcases findShortestSeparator_cases start limit with
    same | ⟨front, byte, other, startRest, limitRest, rfl, rfl, room, shortened⟩
  · have reflexive : compare start start = .eq := Std.ReflCmp.compare_self
    rw [same, reflexive]
    exact ⟨rfl, order⟩
  · have next := toNat_succ (room.trans other.toNat_lt)
    rw [shortened, compare_append, compare_append]
    refine ⟨?_, compare_of_head_lt ?_ _ _⟩
    · rw [compare_of_head_lt (UInt8.lt_iff_toNat_lt.mpr (by omega))]
      rfl
    · exact UInt8.lt_iff_toNat_lt.mpr (by omega)

theorem findShortestSeparator_self (key : Bytes) : findShortestSeparator key key = key := by
  rcases findShortestSeparator_cases key key with
    same | ⟨front, byte, other, startRest, limitRest, first, second, room, _⟩
  · exact same
  · have heads := List.append_cancel_left (first.symm.trans second)
    obtain ⟨rfl, -⟩ := List.cons_eq_cons.mp heads
    omega

/-- A short successor is at or after its key. -/
theorem le_findShortSuccessor (key : Bytes) : (compare key (findShortSuccessor key)).isLE := by
  induction key with
  | nil => rfl
  | cons byte rest inductionHypothesis =>
    rw [findShortSuccessor]
    split
    · next room =>
      have small : byte.toNat + 1 < 2 ^ 8 := by
        have bound := byte.toNat_lt
        have different : byte.toNat ≠ 255 := fun same => room (UInt8.toNat_inj.mp same)
        omega
      rw [compare_of_head_lt (UInt8.lt_iff_toNat_lt.mpr (by rw [toNat_succ small]; omega))]
      rfl
    · rw [compare_cons_cons, if_neg (UInt8.lt_irrefl byte), if_neg (UInt8.lt_irrefl byte)]
      exact inductionHypothesis

end BytewiseComparator

/-- The bytewise comparator keeps what `comparator.h` says of a comparator. -/
theorem bytewiseComparator_sound : bytewiseComparator.Sound where
  trans := inferInstanceAs (Std.TransCmp BytewiseComparator.compare)
  eq_of_compare first second same := by
    change BytewiseComparator.compare first second = .eq at same
    exact Std.LawfulEqCmp.eq_of_compare same
  start_le _ _ order := (BytewiseComparator.findShortestSeparator_between order).1
  lt_limit _ _ order := (BytewiseComparator.findShortestSeparator_between order).2
  le_successor := BytewiseComparator.le_findShortSuccessor

/-! ### Internal keys -/

/-- The tag of a key with at least eight bytes. -/
def storedTag (key : Bytes) : Nat := decodeFixed64 (key.drop (key.length - 8))

/-- The low byte of the tag is a value type, as `ParseInternalKey` wants it. -/
def HasValidTag (key : Bytes) : Prop := storedTag key % 256 ≤ kValueTypeForSeek.code

/-- The key that `AppendInternalKey` makes of a user key, with the tag that sorts first. -/
def seekKey (userKey : Bytes) : Bytes :=
  userKey ++ encodeFixed64 (packSequenceAndType kMaxSequenceNumber kValueTypeForSeek)

namespace InternalKeyComparator

/-- `InternalKeyComparator::FindShortestSeparator`; `none` when `ExtractUserKey` would read in
front of a key. -/
def findShortestSeparator (user : Sst.Comparator) (start limit : Bytes) : Option Bytes := do
  let userStart ← extractUserKey start
  let userLimit ← extractUserKey limit
  let tmp := user.findShortestSeparator userStart userLimit
  if tmp.length < userStart.length ∧ user.compare userStart tmp = .lt then
    return seekKey tmp
  else return start

/-- `InternalKeyComparator::FindShortSuccessor`. -/
def findShortSuccessor (user : Sst.Comparator) (key : Bytes) : Option Bytes := do
  let userKey ← extractUserKey key
  let tmp := user.findShortSuccessor userKey
  if tmp.length < userKey.length ∧ user.compare userKey tmp = .lt then return seekKey tmp
  else return key

end InternalKeyComparator

theorem seekKey_isLong (userKey : Bytes) : IsLong (seekKey userKey) := by
  rw [IsLong, seekKey, List.length_append, length_encodeFixed64]
  omega

theorem seekKey_userKey (userKey : Bytes) :
    (seekKey userKey).take ((seekKey userKey).length - 8) = userKey := by
  rw [seekKey, List.length_append, length_encodeFixed64, Nat.add_sub_cancel, List.take_left]

theorem seekKey_hasValidTag (userKey : Bytes) : HasValidTag (seekKey userKey) := by
  have tag : storedTag (seekKey userKey) =
      packSequenceAndType kMaxSequenceNumber kValueTypeForSeek := by
    rw [storedTag, seekKey, List.length_append, length_encodeFixed64, Nat.add_sub_cancel,
      List.drop_left, ← List.append_nil (encodeFixed64 _)]
    exact decodeFixed64_encodeFixed64 (by decide) []
  rw [HasValidTag, tag]
  decide

section CompareKeys

variable {user : Bytes → Bytes → Ordering} {first second : Bytes} (firstLong : IsLong first)
  (secondLong : IsLong second)

include firstLong secondLong

/-- Keys are compared by their user keys, and by their tags, the greater one first, where the
user keys are the same. -/
theorem compareKeys_eq :
    compareKeys user first second =
      some ((user (first.take (first.length - 8)) (second.take (second.length - 8))).then
        (Ord.compare (storedTag second) (storedTag first))) := by
  rw [compareKeys, extractUserKey_isSome firstLong, extractUserKey_isSome secondLong]
  dsimp only [Option.bind_eq_bind, Option.bind_some]
  cases user (first.take (first.length - 8)) (second.take (second.length - 8)) with
  | lt => rfl
  | gt => rfl
  | eq =>
    refine congrArg some ?_
    change (if storedTag second < storedTag first then Ordering.lt
      else if storedTag first < storedTag second then Ordering.gt else Ordering.eq) = _
    rcases lt_trichotomy (storedTag second) (storedTag first) with less | same | greater
    · rw [if_pos less, Ordering.eq_then, compare_lt_iff_lt.mpr less]
    · rw [if_neg same.not_lt, if_neg same.not_gt, Ordering.eq_then, compare_eq_iff_eq.mpr same]
    · rw [if_neg (lt_asymm greater), if_pos greater, Ordering.eq_then,
        compare_gt_iff_gt.mpr greater]

theorem compareKeys_of_userKey_lt
    (less : user (first.take (first.length - 8)) (second.take (second.length - 8)) = .lt) :
    compareKeys user first second = some .lt := by
  rw [compareKeys_eq firstLong secondLong, less, Ordering.lt_then]

end CompareKeys

theorem compareKeys_self {user : Bytes → Bytes → Ordering} [Std.ReflCmp user] {key : Bytes}
    (isLong : IsLong key) : compareKeys user key key = some .eq := by
  have reflexive : user (key.take (key.length - 8)) (key.take (key.length - 8)) = .eq :=
    Std.ReflCmp.compare_self
  rw [compareKeys_eq isLong isLong, reflexive, Ordering.eq_then, compare_eq_iff_eq.mpr rfl]

namespace InternalKeyComparator

variable {user : Sst.Comparator} (sound : user.Sound)

include sound

/-- The separator of two keys in order is at or after the first and before the second; it is the
first one, or a user key with the tag that sorts first. -/
theorem findShortestSeparator_between
    (unchanged : ∀ userKey, user.findShortestSeparator userKey userKey = userKey)
    {start limit : Bytes} (startLong : IsLong start) (limitLong : IsLong limit)
    (order : compareKeys user.compare start limit = some .lt) :
    ∃ separator, findShortestSeparator user start limit = some separator ∧
      (∃ result, compareKeys user.compare start separator = some result ∧ result.isLE) ∧
      compareKeys user.compare separator limit = some .lt ∧
      (separator = start ∨ ∃ userKey, separator = seekKey userKey) := by
  have := sound.trans
  rw [findShortestSeparator, extractUserKey_isSome startLong, extractUserKey_isSome limitLong]
  dsimp only [Option.bind_eq_bind, Option.bind_some]
  split
  · next shortened =>
    refine ⟨_, rfl, ⟨.lt, ?_, rfl⟩, ?_, .inr ⟨_, rfl⟩⟩
    · refine compareKeys_of_userKey_lt startLong (seekKey_isLong _) ?_
      rw [seekKey_userKey]
      exact shortened.2
    · refine compareKeys_of_userKey_lt (seekKey_isLong _) limitLong ?_
      rw [seekKey_userKey]
      refine sound.lt_limit _ _ ?_
      rw [compareKeys_eq startLong limitLong, Option.some.injEq, Ordering.then_eq_lt] at order
      rcases order with less | ⟨same, _⟩
      · exact less
      · rw [← sound.eq_of_compare _ _ same, unchanged] at shortened
        exact absurd shortened.1 (lt_irrefl _)
  · exact ⟨start, rfl, ⟨.eq, compareKeys_self startLong, rfl⟩, order, .inl rfl⟩

/-- The separator is an internal key with a valid tag when the first key is one. -/
theorem findShortestSeparator_spec
    (unchanged : ∀ userKey, user.findShortestSeparator userKey userKey = userKey)
    {start limit : Bytes} (startLong : IsLong start)
    (startTag : HasValidTag start) (limitLong : IsLong limit)
    (order : compareKeys user.compare start limit = some .lt) :
    ∃ separator, findShortestSeparator user start limit = some separator ∧
      (∃ result, compareKeys user.compare start separator = some result ∧ result.isLE) ∧
      compareKeys user.compare separator limit = some .lt ∧
      IsLong separator ∧ HasValidTag separator := by
  obtain ⟨separator, isSeparator, atLeast, below, rfl | ⟨userKey, rfl⟩⟩ :=
    findShortestSeparator_between sound unchanged startLong limitLong order
  · exact ⟨_, isSeparator, atLeast, below, startLong, startTag⟩
  · exact ⟨_, isSeparator, atLeast, below, seekKey_isLong _, seekKey_hasValidTag _⟩

/-- The successor of a key is at or after it; it is the key, or a user key with the tag that sorts
first. -/
theorem le_findShortSuccessor {key : Bytes} (isLong : IsLong key) :
    ∃ successor, findShortSuccessor user key = some successor ∧
      (∃ result, compareKeys user.compare key successor = some result ∧ result.isLE) ∧
      (successor = key ∨ ∃ userKey, successor = seekKey userKey) := by
  have := sound.trans
  rw [findShortSuccessor, extractUserKey_isSome isLong]
  dsimp only [Option.bind_eq_bind, Option.bind_some]
  split
  · next shortened =>
    refine ⟨_, rfl, ⟨.lt, ?_, rfl⟩, .inr ⟨_, rfl⟩⟩
    refine compareKeys_of_userKey_lt isLong (seekKey_isLong _) ?_
    rw [seekKey_userKey]
    exact shortened.2
  · exact ⟨key, rfl, ⟨.eq, compareKeys_self isLong, rfl⟩, .inl rfl⟩

/-- The successor is an internal key with a valid tag when the key is one. -/
theorem findShortSuccessor_spec {key : Bytes} (isLong : IsLong key) (tag : HasValidTag key) :
    ∃ successor, findShortSuccessor user key = some successor ∧
      (∃ result, compareKeys user.compare key successor = some result ∧ result.isLE) ∧
      IsLong successor ∧ HasValidTag successor := by
  obtain ⟨successor, isSuccessor, atLeast, rfl | ⟨userKey, rfl⟩⟩ :=
    le_findShortSuccessor sound isLong
  · exact ⟨_, isSuccessor, atLeast, isLong, tag⟩
  · exact ⟨_, isSuccessor, atLeast, seekKey_isLong _, seekKey_hasValidTag _⟩

end InternalKeyComparator

/-- An internal key: a user key and a tag whose low byte is a value type. -/
structure IsInternalKey (key : Bytes) : Prop where
  isLong : IsLong key
  tag : HasValidTag key

instance (key : Bytes) : Decidable (IsInternalKey key) :=
  decidable_of_iff (IsLong key ∧ storedTag key % 256 ≤ kValueTypeForSeek.code)
    ⟨fun both => ⟨both.1, both.2⟩, fun isKey => ⟨isKey.isLong, isKey.tag⟩⟩

/-- For the bytewise comparator the separator of two internal keys `first < second` lies between
them, the successor of an internal key is at or after it, and both are internal keys. -/
theorem shortenedKeys_between :
    (∀ first second, IsInternalKey first → IsInternalKey second →
      compareKeys bytewiseComparator.compare first second = some .lt →
        ∃ separator, InternalKeyComparator.findShortestSeparator bytewiseComparator first second =
            some separator ∧
          (∃ result, compareKeys bytewiseComparator.compare first separator = some result ∧
            result.isLE) ∧
          compareKeys bytewiseComparator.compare separator second = some .lt ∧
          IsInternalKey separator) ∧
    ∀ key, IsInternalKey key →
      ∃ successor, InternalKeyComparator.findShortSuccessor bytewiseComparator key =
          some successor ∧
        (∃ result, compareKeys bytewiseComparator.compare key successor = some result ∧
          result.isLE) ∧
        IsInternalKey successor := by
  refine ⟨fun first second isFirst isSecond order => ?_, fun key isKey => ?_⟩
  · obtain ⟨separator, isSeparator, atLeast, below, isLong, tag⟩ :=
      InternalKeyComparator.findShortestSeparator_spec bytewiseComparator_sound
        BytewiseComparator.findShortestSeparator_self isFirst.isLong isFirst.tag isSecond.isLong
        order
    exact ⟨separator, isSeparator, atLeast, below, isLong, tag⟩
  · obtain ⟨successor, isSuccessor, atLeast, isLong, tag⟩ :=
      InternalKeyComparator.findShortSuccessor_spec bytewiseComparator_sound isKey.isLong isKey.tag
    exact ⟨successor, isSuccessor, atLeast, isLong, tag⟩

theorem shortenedKeys_between_foo :
    let foo := [0x66, 0x6f, 0x6f] ++ encodeFixed64 (packSequenceAndType 100 .kTypeValue)
    let hello := [0x68, 0x65, 0x6c, 0x6c, 0x6f] ++
      encodeFixed64 (packSequenceAndType 200 .kTypeValue)
    ∃ separator,
      InternalKeyComparator.findShortestSeparator bytewiseComparator foo hello = some separator ∧
        (∃ result, compareKeys bytewiseComparator.compare foo separator = some result ∧
          result.isLE) ∧
        compareKeys bytewiseComparator.compare separator hello = some .lt ∧
        IsInternalKey separator :=
  shortenedKeys_between.1 _ _ (by decide +kernel) (by decide +kernel) (by decide +kernel)

/-! ### The comparator of the tables -/

theorem transCmp_comap {α γ : Type} {compare : γ → γ → Ordering} [Std.TransCmp compare]
    (f : α → γ) : Std.TransCmp fun first second => compare (f first) (f second) where
  eq_swap := Std.OrientedCmp.eq_swap
  isLE_trans := Std.TransCmp.isLE_trans

namespace InternalKeyComparator

/-- The order of internal keys, continued to byte strings without a tag, which come first. -/
def compareAll (user : Bytes → Bytes → Ordering) : Bytes → Bytes → Ordering :=
  compareLex (fun first second => Ord.compare (decide (IsLong first)) (decide (IsLong second)))
    (compareLex
      (fun first second =>
        user (first.take (first.length - 8)) (second.take (second.length - 8)))
      (compareLex (fun first second => Ord.compare (storedTag second) (storedTag first))
        BytewiseComparator.compare))

/-- `InternalKeyComparator` as a comparator of tables. The source asserts that a key has a tag. -/
def toComparator (user : Sst.Comparator) : Sst.Comparator where
  compare := compareAll user.compare
  findShortestSeparator start limit := (findShortestSeparator user start limit).getD start
  findShortSuccessor key := (findShortSuccessor user key).getD key

/-- The tag and the user key make up a key. -/
theorem eq_of_parts {first second : Bytes} (firstLong : IsLong first) (secondLong : IsLong second)
    (sameUser : first.take (first.length - 8) = second.take (second.length - 8))
    (sameTag : storedTag first = storedTag second) : first = second := by
  have parts : ∀ {key : Bytes}, IsLong key →
      key = key.take (key.length - 8) ++ encodeFixed64 (storedTag key) := by
    intro key isLong
    have length : (key.drop (key.length - 8)).length = 8 := by
      rw [List.length_drop]
      exact Nat.sub_sub_self isLong
    have same := encodeFixed_decodeFixed (key.drop (key.length - 8))
    rw [length] at same
    rw [storedTag, decodeFixed64, List.take_of_length_le length.le, encodeFixed64, same,
      List.take_append_drop]
  rw [parts firstLong, parts secondLong, sameUser, sameTag]

/-- On keys with a tag it is the comparison of the source. -/
theorem compareKeys_eq_compareAll {user : Sst.Comparator} (sound : user.Sound)
    {first second : Bytes} (firstLong : IsLong first) (secondLong : IsLong second) :
    compareKeys user.compare first second = some (compareAll user.compare first second) := by
  rw [compareKeys_eq firstLong secondLong, compareAll, compareLex, decide_eq_true firstLong,
    decide_eq_true secondLong, show Ord.compare true true = .eq from rfl, Ordering.eq_then,
    compareLex, compareLex]
  cases isUser : user.compare (first.take (first.length - 8)) (second.take (second.length - 8)) with
  | lt => rfl
  | gt => rfl
  | eq =>
    rw [Ordering.eq_then, Ordering.eq_then]
    cases isTag : Ord.compare (storedTag second) (storedTag first) with
    | lt => rfl
    | gt => rfl
    | eq =>
      have same := eq_of_parts firstLong secondLong (sound.eq_of_compare _ _ isUser)
        (compare_eq_iff_eq.mp isTag).symm
      have reflexive : BytewiseComparator.compare second second = .eq := Std.ReflCmp.compare_self
      rw [same, Ordering.eq_then, reflexive]

/-- On encoded keys it compares the user keys and then the tags. -/
theorem compareAll_append {user : Sst.Comparator} (sound : user.Sound)
    {firstKey secondKey : Bytes} {firstTag secondTag : Nat} (firstFits : firstTag < 2 ^ 64)
    (secondFits : secondTag < 2 ^ 64) :
    compareAll user.compare (firstKey ++ encodeFixed64 firstTag)
        (secondKey ++ encodeFixed64 secondTag) =
      (user.compare firstKey secondKey).then (Ord.compare secondTag firstTag) := by
  have length : ∀ key tag, (key ++ encodeFixed64 tag).length - 8 = key.length := by
    intro key tag
    rw [List.length_append, length_encodeFixed64, Nat.add_sub_cancel]
  have isLong : ∀ key tag, IsLong (key ++ encodeFixed64 tag) := by
    intro key tag
    rw [IsLong, List.length_append, length_encodeFixed64]
    exact Nat.le_add_left _ _
  have userKey : ∀ key tag, (key ++ encodeFixed64 tag).take ((key ++ encodeFixed64 tag).length - 8) =
      key := by
    intro key tag
    rw [length, List.take_left]
  have stored : ∀ key {tag}, tag < 2 ^ 64 → storedTag (key ++ encodeFixed64 tag) = tag := by
    intro key tag fits
    rw [storedTag, length, List.drop_left, ← List.append_nil (encodeFixed64 _)]
    exact decodeFixed64_encodeFixed64 fits []
  have compared := (compareKeys_eq_compareAll sound (isLong firstKey firstTag)
    (isLong secondKey secondTag)).symm.trans (compareKeys_eq (isLong _ _) (isLong _ _))
  rw [userKey, userKey, stored _ firstFits, stored _ secondFits] at compared
  exact Option.some.inj compared

theorem isLong_of_compareAll_lt {user : Bytes → Bytes → Ordering} {first second : Bytes}
    (less : compareAll user first second = .lt) (firstLong : IsLong first) : IsLong second := by
  by_contra short
  rw [compareAll, compareLex, decide_eq_true firstLong, decide_eq_false short] at less
  cases less

theorem toComparator_sound {user : Sst.Comparator} (sound : user.Sound)
    (unchanged : ∀ userKey, user.findShortestSeparator userKey userKey = userKey) :
    (toComparator user).Sound := by
  have := sound.trans
  have trans : Std.TransCmp (compareAll user.compare) := by
    have long := @transCmp_comap Bytes Bool Ord.compare _ fun key => decide (IsLong key)
    have userKeys := @transCmp_comap Bytes Bytes user.compare _ fun key =>
      key.take (key.length - 8)
    have tags := @transCmp_comap Bytes Nat (fun first second => Ord.compare second first) _
      storedTag
    exact inferInstanceAs (Std.TransCmp (compareLex _ (compareLex _ (compareLex _ _))))
  have reflexive : ∀ key, compareAll user.compare key key = .eq := fun key =>
    Std.ReflCmp.compare_self
  have separates : ∀ {start limit}, compareAll user.compare start limit = .lt →
      (compareAll user.compare start ((findShortestSeparator user start limit).getD start)).isLE ∧
        compareAll user.compare ((findShortestSeparator user start limit).getD start) limit =
          .lt := by
    intro start limit less
    by_cases startLong : IsLong start
    · have limitLong := isLong_of_compareAll_lt less startLong
      obtain ⟨separator, isSeparator, ⟨result, isResult, atLeast⟩, below, kind⟩ :=
        findShortestSeparator_between sound unchanged startLong limitLong
          ((compareKeys_eq_compareAll sound startLong limitLong).trans (congrArg some less))
      have separatorLong : IsLong separator := by
        obtain rfl | ⟨userKey, rfl⟩ := kind
        · exact startLong
        · exact seekKey_isLong _
      rw [compareKeys_eq_compareAll sound startLong separatorLong] at isResult
      rw [compareKeys_eq_compareAll sound separatorLong limitLong] at below
      rw [isSeparator, Option.getD_some, Option.some.inj isResult]
      exact ⟨atLeast, Option.some.inj below⟩
    · have unread : findShortestSeparator user start limit = none := by
        have short : extractUserKey start = none := if_neg startLong
        rw [findShortestSeparator, short]
        rfl
      rw [unread, Option.getD_none, reflexive]
      exact ⟨rfl, less⟩
  refine ⟨trans, fun first second same => ?_, fun start limit less => (separates less).1,
    fun start limit less => (separates less).2, fun key => ?_⟩
  · have sameBytes := (Ordering.then_eq_eq.mp (Ordering.then_eq_eq.mp (Ordering.then_eq_eq.mp
      same).2).2).2
    exact Std.LawfulEqCmp.eq_of_compare sameBytes
  · show (compareAll user.compare key ((findShortSuccessor user key).getD key)).isLE
    by_cases isLong : IsLong key
    · obtain ⟨successor, isSuccessor, ⟨result, isResult, atLeast⟩, kind⟩ :=
        le_findShortSuccessor sound isLong
      have successorLong : IsLong successor := by
        obtain rfl | ⟨userKey, rfl⟩ := kind
        · exact isLong
        · exact seekKey_isLong _
      rw [compareKeys_eq_compareAll sound isLong successorLong] at isResult
      rw [isSuccessor, Option.getD_some, Option.some.inj isResult]
      exact atLeast
    · have unread : findShortSuccessor user key = none := by
        have short : extractUserKey key = none := if_neg isLong
        rw [findShortSuccessor, short]
        rfl
      rw [unread, Option.getD_none, reflexive]
      rfl

end InternalKeyComparator

end LevelDb
