/-
This file models `DBImpl::GetApproximateSizes` and `VersionSet::ApproximateOffsetOf`. A file counts
with its whole size, with an offset in its table, or not at all, and a level below the first one
is left at the first file behind the key. The offset grows with the key in each of the files, so
that sizes of adjacent ranges add up, as long as the sums fit in the 64 bits they are kept in.
-/

import LevelDb.ByteKeys
import LevelDb.Sst.BuiltTable
import LevelDb.Version

namespace LevelDb

/-- How the tables hold internal keys: their comparator keeps the order of the keys. -/
structure KeyEncoding (α : Type) [LinearOrder α] where
  comparator : Sst.Comparator
  sound : comparator.Sound
  encode : InternalKey α → Bytes
  encode_mono : ∀ first second, first.tag < 2 ^ 64 → second.tag < 2 ^ 64 → first ≤ second →
    (comparator.compare (encode first) (encode second)).isLE

/-- The encoding with a user comparator that leaves keys alone which are not in order. -/
def KeyEncoding.ofComparator {user : Sst.Comparator} (sound : user.Sound)
    (unchanged : ∀ userKey, user.findShortestSeparator userKey userKey = userKey) :
    @KeyEncoding Bytes sound.order :=
  @KeyEncoding.mk Bytes sound.order (InternalKeyComparator.toComparator user)
    (InternalKeyComparator.toComparator_sound sound unchanged)
    (fun key => key.userKey ++ encodeFixed64 key.tag)
    (by
      intro first second firstFits secondFits order
      show (InternalKeyComparator.compareAll user.compare _ _).isLE
      rw [InternalKeyComparator.compareAll_append sound firstFits secondFits]
      obtain less | ⟨same, atMost⟩ := order
      · have isLess : user.compare first.userKey second.userKey = .lt := less
        rw [isLess]
        rfl
      · have := sound.trans
        have reflexive : user.compare second.userKey second.userKey = .eq :=
          Std.ReflCmp.compare_self
        rw [same, reflexive, Ordering.eq_then]
        exact Nat.isLE_compare.mpr atMost)

/-- What the tables of a database are opened with: the options, in which a comparator has an
address, and the files. A value is stored as it is encoded. -/
structure TableSource (α β : Type) [LinearOrder α] where
  keys : KeyEncoding α
  encodeValue : β → Bytes
  comparators : Nat → Sst.Comparator
  options : Sst.Options
  isComparator : comparators options.comparator = keys.comparator
  newRandomAccessFile : Nat → Option Sst.RandomAccessFile

namespace TableSource

variable {α β : Type} [LinearOrder α] (source : TableSource α β)

/-- The table behind the iterator of `TableCache::NewIterator`, if it can be opened. -/
def findTable (number fileSize : Nat) : Except Sst.Fault (Option Sst.Table) :=
  match source.newRandomAccessFile number with
  | none => .ok none
  | some file => (Sst.Table.openFile source.options file fileSize 0).map Except.toOption

/-- The loop of `ApproximateOffsetOf` over the files of a level. -/
def levelOffset (level : Nat) (ikey : InternalKey α) :
    List (FileMetaData α β) → Nat → Except Sst.Fault Nat
  | [], result => .ok result
  | file :: rest, result =>
    if file.largest ≤ ikey then levelOffset level ikey rest ((result + file.fileSize) % 2 ^ 64)
    else if ikey < file.smallest then
      if level > 0 then .ok result else levelOffset level ikey rest result
    else do
      match ← source.findTable file.number file.fileSize with
      | none => levelOffset level ikey rest result
      | some table =>
        let offset ← table.approximateOffsetOf source.comparators (source.keys.encode ikey)
        levelOffset level ikey rest ((result + offset) % 2 ^ 64)

/-- `VersionSet::ApproximateOffsetOf`. -/
def approximateOffsetOf (version : Version α β) (ikey : InternalKey α) : Except Sst.Fault Nat :=
  (List.range Config.kNumLevels).foldlM
    (fun result level => source.levelOffset level ikey (version.files level) result) 0

/-- The key that `GetApproximateSizes` makes of an end of a range. -/
def rangeKey (userKey : α) : InternalKey α :=
  .make userKey kMaxSequenceNumber kValueTypeForSeek

/-- The size of one range. -/
def approximateSize (version : Version α β) (range : α × α) : Except Sst.Fault Nat := do
  let start ← source.approximateOffsetOf version (rangeKey range.1)
  let limit ← source.approximateOffsetOf version (rangeKey range.2)
  return if limit ≥ start then limit - start else 0

/-- `DBImpl::GetApproximateSizes`, with the start and the limit of each range. -/
def getApproximateSizes (version : Version α β) (ranges : List (α × α)) :
    Except Sst.Fault (List Nat) :=
  ranges.mapM (source.approximateSize version)

/-! ### Valid versions -/

/-- A file of a version is a table with the entries of the metadata, which a builder wrote, and it
opens. -/
structure HasTable (file : FileMetaData α β) (build : Sst.TableBuild)
    (raw : Sst.RandomAccessFile) (table : Sst.Table) : Prop where
  isFile : source.newRandomAccessFile file.number = some raw
  readBy : build.ReadBy source.comparators source.options raw
  entries_eq : build.entries = file.entries.map fun entry =>
    (source.keys.encode entry.key, source.encodeValue entry.value)
  fileSize_eq : file.fileSize = build.contents.length
  opens : Sst.Table.openFile source.options raw file.fileSize 0 = .ok (.ok table)

/-- A valid version whose tables open. -/
structure Opens (version : Version α β) : Prop where
  sorted : version.Sorted
  tables : ∀ level < Config.kNumLevels, ∀ file ∈ version.files level,
    ∃ build raw table, source.HasTable file build raw table

variable {source} {file : FileMetaData α β}

theorem HasTable.findTable_eq {build : Sst.TableBuild} {raw : Sst.RandomAccessFile}
    {table : Sst.Table} (hasTable : source.HasTable file build raw table) :
    source.findTable file.number file.fileSize = .ok (some table) := by
  rw [findTable, hasTable.isFile]
  dsimp only
  rw [hasTable.opens]
  rfl

/-! ### What a file counts -/

/-- What a file counts for a key that has some offset in its table. -/
def counted (offset : Nat) (ikey : InternalKey α) (file : FileMetaData α β) : Nat :=
  if file.largest ≤ ikey then file.fileSize else if ikey < file.smallest then 0 else offset

theorem counted_le {offset : Nat} (inside : offset ≤ file.fileSize) (ikey : InternalKey α) :
    counted offset ikey file ≤ file.fileSize := by
  rw [counted]
  split
  · exact le_rfl
  · split
    · exact Nat.zero_le _
    · exact inside

/-- The rules by which a file counts are in the order of the keys. -/
theorem counted_mono {first second : InternalKey α} (order : first ≤ second)
    {firstOffset secondOffset : Nat} (offsets : firstOffset ≤ secondOffset)
    (inside : firstOffset ≤ file.fileSize) :
    counted firstOffset first file ≤ counted secondOffset second file := by
  by_cases isBefore : file.largest ≤ second
  · rw [counted, counted, if_pos isBefore]
    exact counted_le inside first
  · have notBefore : ¬ file.largest ≤ first := fun before => isBefore (before.trans order)
    rw [counted, counted, if_neg isBefore, if_neg notBefore]
    by_cases isBehind : first < file.smallest
    · rw [if_pos isBehind]
      exact Nat.zero_le _
    · rw [if_neg isBehind, if_neg fun behind => isBehind (order.trans_lt behind)]
      exact offsets

/-- A table of a valid version gives the keys offsets that grow, up to the size of the file. -/
theorem HasTable.exists_offsets {build : Sst.TableBuild} {raw : Sst.RandomAccessFile}
    {table : Sst.Table} (hasTable : source.HasTable file build raw table) :
    ∃ offsetOf : InternalKey α → Nat,
      (∀ ikey, table.approximateOffsetOf source.comparators (source.keys.encode ikey) =
        .ok (offsetOf ikey)) ∧
      (∀ ikey, offsetOf ikey ≤ file.fileSize) ∧
      ∀ first second, first.tag < 2 ^ 64 → second.tag < 2 ^ 64 → first ≤ second →
        offsetOf first ≤ offsetOf second := by
  obtain ⟨offsetOf, isOffset, inside, grows⟩ :=
    hasTable.readBy.approximateOffsetOf (hasTable.fileSize_eq ▸ hasTable.opens)
  refine ⟨fun ikey => offsetOf (source.keys.encode ikey), fun ikey => isOffset _,
    fun ikey => hasTable.fileSize_eq ▸ inside _, fun first second firstFits secondFits order => ?_⟩
  refine grows _ _ ?_
  rw [source.isComparator]
  exact source.keys.encode_mono first second firstFits secondFits order

/-! ### Sums -/

variable {offsetOf : FileMetaData α β → Nat} {ikey : InternalKey α}

/-- The sum that a level adds is over all of its files, also where the loop is left early. -/
theorem levelOffset_eq {level : Nat} {files : List (FileMetaData α β)}
    (tables : ∀ file ∈ files, ∃ table, source.findTable file.number file.fileSize =
      .ok (some table) ∧ table.approximateOffsetOf source.comparators (source.keys.encode ikey) =
        .ok (offsetOf file))
    (sorted : 0 < level → DisjointSorted files)
    (valid : ∀ file ∈ files, file.smallest ≤ file.largest) (result : Nat) :
    source.levelOffset level ikey files (result % 2 ^ 64) =
      .ok ((result + (files.map fun file => counted (offsetOf file) ikey file).sum) % 2 ^ 64) := by
  induction files generalizing result with
  | nil => rfl
  | cons file rest inductionHypothesis =>
    have later := inductionHypothesis
      (fun other member => tables other (List.mem_cons_of_mem _ member))
      (fun positive => (sorted positive).of_cons)
      fun other member => valid other (List.mem_cons_of_mem _ member)
    rw [List.map_cons, List.sum_cons, ← Nat.add_assoc, levelOffset]
    by_cases isBefore : file.largest ≤ ikey
    · rw [if_pos isBefore, counted, if_pos isBefore, Nat.mod_add_mod]
      exact later _
    · rw [if_neg isBefore, counted, if_neg isBefore]
      by_cases isBehind : ikey < file.smallest
      · rw [if_pos isBehind, if_pos isBehind, Nat.add_zero]
        by_cases positive : level > 0
        · have nothing : (rest.map fun other => counted (offsetOf other) ikey other).sum = 0 := by
            refine List.sum_eq_zero fun count isCount => ?_
            obtain ⟨other, member, rfl⟩ := List.mem_map.mp isCount
            have behind : ikey < other.smallest := isBehind.trans
              ((valid file List.mem_cons_self).trans_lt
                ((List.pairwise_cons.mp (sorted positive)).1 other member))
            rw [counted, if_neg (not_le_of_gt (behind.trans_le
              (valid other (List.mem_cons_of_mem _ member)))), if_pos behind]
          rw [if_pos positive, nothing, Nat.add_zero]
        · rw [if_neg positive]
          exact later _
      · obtain ⟨table, found, isOffset⟩ := tables file List.mem_cons_self
        rw [if_neg isBehind, if_neg isBehind, found]
        dsimp only [bind, Except.bind]
        rw [isOffset]
        dsimp only
        rw [Nat.mod_add_mod]
        exact later _

/-- What the files of some levels count. -/
def countedSum (version : Version α β) (offsetOf : FileMetaData α β → Nat) (ikey : InternalKey α)
    (levels : List Nat) : Nat :=
  (levels.map fun level => ((version.files level).map fun file =>
    counted (offsetOf file) ikey file).sum).sum

/-- The sizes of the files of a version. -/
def totalSize (version : Version α β) : Nat :=
  ((List.range Config.kNumLevels).map fun level => totalFileSize (version.files level)).sum

variable {version : Version α β}

theorem levels_eq (sorted : version.Sorted) {levels : List Nat}
    (tables : ∀ level ∈ levels, ∀ file ∈ version.files level, ∃ table,
      source.findTable file.number file.fileSize = .ok (some table) ∧
        table.approximateOffsetOf source.comparators (source.keys.encode ikey) =
          .ok (offsetOf file)) (result : Nat) :
    levels.foldlM (fun result level => source.levelOffset level ikey (version.files level) result)
        (result % 2 ^ 64) =
      .ok ((result + countedSum version offsetOf ikey levels) % 2 ^ 64) := by
  induction levels generalizing result with
  | nil => rfl
  | cons level rest inductionHypothesis =>
    have first := levelOffset_eq (tables level List.mem_cons_self) (sorted.disjoint level)
      (fun file member => (sorted.valid level file member).smallest_le_largest) result
    rw [List.foldlM_cons, first]
    dsimp only [bind, Except.bind]
    rw [inductionHypothesis fun other member => tables other (List.mem_cons_of_mem _ member),
      Nat.add_assoc]
    rfl

/-- The offset is the sum of what the files count. -/
theorem approximateOffsetOf_eq (sorted : version.Sorted)
    (tables : ∀ level < Config.kNumLevels, ∀ file ∈ version.files level, ∃ table,
      source.findTable file.number file.fileSize = .ok (some table) ∧
        table.approximateOffsetOf source.comparators (source.keys.encode ikey) =
          .ok (offsetOf file)) :
    source.approximateOffsetOf version ikey =
      .ok (countedSum version offsetOf ikey (List.range Config.kNumLevels) % 2 ^ 64) := by
  have whole := levels_eq sorted (fun level member => tables level (List.mem_range.mp member)) 0
  rwa [Nat.zero_add] at whole

theorem countedSum_mono {levels : List Nat}
    {firstOffset secondOffset : FileMetaData α β → Nat} {first second : InternalKey α}
    (order : first ≤ second)
    (offsets : ∀ level ∈ levels, ∀ file ∈ version.files level,
      firstOffset file ≤ secondOffset file ∧ firstOffset file ≤ file.fileSize) :
    countedSum version firstOffset first levels ≤
      countedSum version secondOffset second levels := by
  refine List.sum_le_sum fun level isLevel => List.sum_le_sum fun file member => ?_
  exact counted_mono order (offsets level isLevel file member).1
    (offsets level isLevel file member).2

theorem countedSum_le
    (inside : ∀ level < Config.kNumLevels, ∀ file ∈ version.files level,
      offsetOf file ≤ file.fileSize) :
    countedSum version offsetOf ikey (List.range Config.kNumLevels) ≤ totalSize version := by
  refine List.sum_le_sum fun level isLevel => List.sum_le_sum fun file member => ?_
  exact counted_le (inside level (List.mem_range.mp isLevel) file member) ikey

/-! ### Valid versions count consistently -/

/-- The offsets in the tables of a valid version. -/
theorem Opens.exists_offsets (opens : source.Opens version) :
    ∃ offsetOf : InternalKey α → FileMetaData α β → Nat,
      ∀ level < Config.kNumLevels, ∀ file ∈ version.files level,
        (∀ ikey, ∃ table, source.findTable file.number file.fileSize = .ok (some table) ∧
          table.approximateOffsetOf source.comparators (source.keys.encode ikey) =
            .ok (offsetOf ikey file)) ∧
        (∀ ikey, offsetOf ikey file ≤ file.fileSize) ∧
        ∀ first second, first.tag < 2 ^ 64 → second.tag < 2 ^ 64 → first ≤ second →
          offsetOf first file ≤ offsetOf second file := by
  have ofFile : ∀ file : FileMetaData α β, ∃ offsetOf : InternalKey α → Nat,
      (∃ build raw table, source.HasTable file build raw table) →
        (∀ ikey, ∃ table, source.findTable file.number file.fileSize = .ok (some table) ∧
          table.approximateOffsetOf source.comparators (source.keys.encode ikey) =
            .ok (offsetOf ikey)) ∧
        (∀ ikey, offsetOf ikey ≤ file.fileSize) ∧
        ∀ first second, first.tag < 2 ^ 64 → second.tag < 2 ^ 64 → first ≤ second →
          offsetOf first ≤ offsetOf second := by
    intro file
    by_cases isTable : ∃ build raw table, source.HasTable file build raw table
    · obtain ⟨build, raw, table, hasTable⟩ := isTable
      obtain ⟨offsetOf, isOffset, inside, grows⟩ := hasTable.exists_offsets
      exact ⟨offsetOf, fun _ => ⟨fun ikey => ⟨table, hasTable.findTable_eq, isOffset ikey⟩, inside,
        grows⟩⟩
    · exact ⟨fun _ => 0, fun hasTable => absurd hasTable isTable⟩
  choose offsetOf spec using ofFile
  exact ⟨fun ikey file => offsetOf file ikey, fun level isLevel file member =>
    spec file (opens.tables level isLevel file member)⟩

/-- The offsets of the keys in a valid version, which grow with the key. -/
theorem Opens.approximateOffsetOf (opens : source.Opens version)
    (fits : totalSize version < 2 ^ 64) :
    ∃ offsetOf : InternalKey α → Nat,
      (∀ ikey, source.approximateOffsetOf version ikey = .ok (offsetOf ikey)) ∧
      ∀ first second, first.tag < 2 ^ 64 → second.tag < 2 ^ 64 → first ≤ second →
        offsetOf first ≤ offsetOf second := by
  obtain ⟨offsetOf, spec⟩ := opens.exists_offsets
  refine ⟨fun ikey => countedSum version (offsetOf ikey) ikey (List.range Config.kNumLevels),
    fun ikey => ?_, fun first second firstFits secondFits order => ?_⟩
  · have small : countedSum version (offsetOf ikey) ikey (List.range Config.kNumLevels) < 2 ^ 64 :=
      (countedSum_le fun level isLevel file member =>
        (spec level isLevel file member).2.1 ikey).trans_lt fits
    rw [approximateOffsetOf_eq opens.sorted fun level isLevel file member =>
      (spec level isLevel file member).1 ikey, Nat.mod_eq_of_lt small]
  · refine countedSum_mono order fun level isLevel file member => ?_
    obtain ⟨-, inside, grows⟩ := spec level (List.mem_range.mp isLevel) file member
    exact ⟨grows first second firstFits secondFits order, inside first⟩

theorem rangeKey_mono {first second : α} (order : first ≤ second) :
    rangeKey first ≤ rangeKey second := by
  obtain less | rfl := order.lt_or_eq
  · exact (InternalKey.lt_of_userKey_lt less).le
  · exact le_rfl

omit [LinearOrder α] in
theorem rangeKey_tag_lt (userKey : α) : (rangeKey userKey).tag < 2 ^ 64 := by
  show packSequenceAndType kMaxSequenceNumber kValueTypeForSeek < 2 ^ 64
  decide

/-- In a valid version whose files take less than 2^64 bytes together the approximate offset grows
with the key, a size is the difference of the offsets of its ends, and the sizes of adjacent ranges
add up. -/
theorem approximateSizes_consistent (source : TableSource α β) (version : Version α β)
    (opens : source.Opens version) (fits : totalSize version < 2 ^ 64) :
    (∀ first second : InternalKey α, first.tag < 2 ^ 64 → second.tag < 2 ^ 64 → first ≤ second →
      ∃ start limit, source.approximateOffsetOf version first = .ok start ∧
        source.approximateOffsetOf version second = .ok limit ∧ start ≤ limit) ∧
    (∀ a b : α, a ≤ b → ∃ start limit,
      source.approximateOffsetOf version (rangeKey a) = .ok start ∧
        source.approximateOffsetOf version (rangeKey b) = .ok limit ∧ start ≤ limit ∧
          source.getApproximateSizes version [(a, b)] = .ok [limit - start]) ∧
    ∀ a b c : α, a ≤ b → b ≤ c → ∃ first second,
      source.getApproximateSizes version [(a, b), (b, c), (a, c)] =
        .ok [first, second, first + second] := by
  obtain ⟨offsetOf, isOffset, grows⟩ := opens.approximateOffsetOf fits
  have ascends : ∀ {a b : α}, a ≤ b → offsetOf (rangeKey a) ≤ offsetOf (rangeKey b) :=
    fun order => grows _ _ (rangeKey_tag_lt _) (rangeKey_tag_lt _) (rangeKey_mono order)
  have sizes : ∀ ranges : List (α × α), (∀ range ∈ ranges, range.1 ≤ range.2) →
      source.getApproximateSizes version ranges = .ok (ranges.map fun range =>
        offsetOf (rangeKey range.2) - offsetOf (rangeKey range.1)) := by
    intro ranges ordered
    induction ranges with
    | nil => rfl
    | cons range rest inductionHypothesis =>
      have later := inductionHypothesis fun other member =>
        ordered other (List.mem_cons_of_mem _ member)
      have first : source.approximateSize version range =
          .ok (offsetOf (rangeKey range.2) - offsetOf (rangeKey range.1)) := by
        rw [approximateSize, isOffset, isOffset]
        exact congrArg Except.ok (if_pos (ascends (ordered range List.mem_cons_self)))
      rw [getApproximateSizes] at later ⊢
      rw [List.mapM_cons, first]
      dsimp only [bind, Except.bind]
      rw [later]
      rfl
  refine ⟨fun first second firstFits secondFits order => ?_, fun a b order => ?_,
    fun a b c lower upper => ?_⟩
  · exact ⟨_, _, isOffset first, isOffset second, grows first second firstFits secondFits order⟩
  · exact ⟨_, _, isOffset _, isOffset _, ascends order,
      sizes [(a, b)] fun range member => List.mem_singleton.mp member ▸ order⟩
  · refine ⟨offsetOf (rangeKey b) - offsetOf (rangeKey a),
      offsetOf (rangeKey c) - offsetOf (rangeKey b), ?_⟩
    have first := ascends lower
    have second := ascends upper
    have whole : offsetOf (rangeKey c) - offsetOf (rangeKey a) =
        (offsetOf (rangeKey b) - offsetOf (rangeKey a)) +
          (offsetOf (rangeKey c) - offsetOf (rangeKey b)) := by omega
    rw [← whole]
    exact sizes [(a, b), (b, c), (a, c)] (by simp [lower, upper, lower.trans upper])

end TableSource

/-! ### Sums that wrap around -/

namespace WrappingSizes

open Sst

local instance : LinearOrder Bytes := bytewiseComparator_sound.order

def keys : KeyEncoding Bytes :=
  .ofComparator bytewiseComparator_sound BytewiseComparator.findShortestSeparator_self

def key (byte : UInt8) : InternalKey Bytes := .make [byte] 1 .kTypeValue

def value : Bytes := List.replicate 31 0

def options : Sst.Options := ⟨0, false, 4096, 16, fun _ => none, none⟩

def comparators : Nat → Comparator := fun _ => keys.comparator

def last (byte : UInt8) : Sst.TableBuilder :=
  (Sst.TableBuilder.new options ⟨[], []⟩).add comparators (keys.encode (key byte)) value

def finished (byte : UInt8) : Except Fault Sst.TableBuilder := (last byte).finish comparators

/-- A table with one pair, which takes 144 bytes. -/
def build (byte : UInt8) : TableBuild where
  options := options
  outcomes := []
  calls := [.add (keys.encode (key byte)) value]
  last := last byte
  final := (finished byte).toOption.getD (last byte)

def byteOf (count number : Nat) : UInt8 := if number < count then 0x61 else 0x62

def file (count number : Nat) : FileMetaData Bytes Bytes :=
  ⟨number, 144, 0, key (byteOf count number), key (byteOf count number),
    [⟨key (byteOf count number), value⟩]⟩

/-- Tables with one of two keys. -/
def source (count : Nat) : TableSource Bytes Bytes where
  keys := keys
  encodeValue := id
  comparators := comparators
  options := options
  isComparator := rfl
  newRandomAccessFile number := some (.ofBytes (build (byteOf count number)).contents)

/-- A first level with the same number of tables for either key. -/
def version (count : Nat) : Version Bytes Bytes :=
  { Version.empty with files := fun level =>
      if level = 0 then (List.range (count + count)).map (file count) else [] }

theorem build_run {byte : UInt8} (isByte : byte = 0x61 ∨ byte = 0x62) :
    (finished byte).toOption.isSome ∧ (build byte).final.status = none ∧
      (build byte).contents.length = 144 ∧
      ∀ raw ∈ (build byte).final.finished, raw.length < 2 ^ 32 := by
  rcases isByte with rfl | rfl
  · decide +kernel
  · decide +kernel

theorem build_readBy {byte : UInt8} (isByte : byte = 0x61 ∨ byte = 0x62) :
    (build byte).ReadBy comparators options (.ofBytes (build byte).contents) where
  reached := rfl
  isFinal := by
    have isOk := (build_run isByte).1
    rw [build, ← finished]
    dsimp only
    generalize finished byte = result at isOk ⊢
    cases result with
    | error fault => cases isOk
    | ok final => rfl
  succeeds := (build_run isByte).2.1
  sound := keys.sound
  sameComparator := rfl
  registered := nofun
  uses := fun call member => by
    rw [List.mem_singleton.mp member]
    trivial
  smallFile := by
    rw [(build_run isByte).2.2.1]
    decide
  smallBlocks := (build_run isByte).2.2.2
  returns := RandomAccessFile.returns_ofBytes _

theorem byteOf_cases (count number : Nat) :
    byteOf count number = 0x61 ∨ byteOf count number = 0x62 := by
  rw [byteOf]
  split
  · exact .inl rfl
  · exact .inr rfl

theorem version_opens (count : Nat) : (source count).Opens (version count) where
  sorted := by
    refine ⟨fun level file member => ?_, fun level positive => ?_⟩
    · rw [version] at member
      dsimp only at member
      split at member
      · obtain ⟨number, -, rfl⟩ := List.mem_map.mp member
        exact ⟨List.pairwise_singleton _ _, fun entry isEntry => by
          rw [List.mem_singleton.mp isEntry]
          show packSequenceAndType 1 .kTypeValue ≤ _
          decide, ⟨_, List.mem_singleton_self _, rfl⟩, ⟨_, List.mem_singleton_self _, rfl⟩,
          fun entry isEntry => (List.mem_singleton.mp isEntry) ▸ le_rfl,
          fun entry isEntry => (List.mem_singleton.mp isEntry) ▸ le_rfl⟩
      · exact absurd member List.not_mem_nil
    · rw [version]
      dsimp only
      rw [if_neg positive.ne']
      exact List.Pairwise.nil
  tables := by
    intro level _ file member
    rw [version] at member
    dsimp only at member
    split at member
    · obtain ⟨number, -, rfl⟩ := List.mem_map.mp member
      have readBy := build_readBy (byteOf_cases count number)
      obtain ⟨parts, readIn, -⟩ := readBy.exists_parts
      have opens := readIn.openFile_eq 0
      have length := (build_run (byteOf_cases count number)).2.2.1
      rw [← TableBuild.contents, length] at opens
      exact ⟨_, _, _, rfl, readBy, rfl, length.symm, opens⟩
    · exact absurd member List.not_mem_nil

theorem countedSum_version (count : Nat) (offsetOf : FileMetaData Bytes Bytes → Nat)
    (ikey : InternalKey Bytes) {first second : Nat}
    (isFirst : ∀ number < count,
      TableSource.counted (offsetOf (file count number)) ikey (file count number) = first)
    (isSecond : ∀ number, TableSource.counted (offsetOf (file count (count + number))) ikey
      (file count (count + number)) = second) :
    TableSource.countedSum (version count) offsetOf ikey (List.range Config.kNumLevels) =
      count * first + count * second := by
  have levels : TableSource.countedSum (version count) offsetOf ikey
      (List.range Config.kNumLevels) = (((List.range (count + count)).map (file count)).map
        fun file => TableSource.counted (offsetOf file) ikey file).sum + 0 := rfl
  have constant : ∀ (numbers : List Nat) (value : Nat) (counts : Nat → Nat),
      (∀ number ∈ numbers, counts number = value) →
        (numbers.map counts).sum = numbers.length * value := by
    intro numbers value counts same
    rw [List.map_congr_left same, List.map_const', List.sum_replicate, smul_eq_mul]
  have firstSum := constant (List.range count) first _ fun number member =>
    isFirst number (List.mem_range.mp member)
  have secondSum := constant (List.range count) second _ fun number _ => isSecond number
  rw [List.length_range] at firstSum secondSum
  rw [levels, Nat.add_zero, List.map_map, List.range_add, List.map_append, List.sum_append,
    List.map_map]
  exact congrArg₂ (· + ·) firstSum secondSum

/-- The offset of a key behind the first tables is what their sizes leave in 64 bits. -/
theorem approximateOffsetOf_version (count : Nat) :
    (source count).approximateOffsetOf (version count) (TableSource.rangeKey [0x62]) =
        .ok ((count * 144 + count * 0) % 2 ^ 64) ∧
      (source count).approximateOffsetOf (version count) (TableSource.rangeKey [0x63]) =
        .ok ((count * 144 + count * 144) % 2 ^ 64) := by
  obtain ⟨offsetOf, spec⟩ := (version_opens count).exists_offsets
  have isOffset := fun ikey => TableSource.approximateOffsetOf_eq (version_opens count).sorted
    fun level isLevel file member => (spec level isLevel file member).1 ikey
  have isFirst : ∀ number < count, byteOf count number = 0x61 := fun number less => if_pos less
  have isSecond : ∀ number, byteOf count (count + number) = 0x62 := fun number =>
    if_neg (Nat.not_lt.mpr (Nat.le_add_right _ _))
  have before : key 0x61 ≤ TableSource.rangeKey [0x62] ∧ key 0x61 ≤ TableSource.rangeKey [0x63] ∧
      key 0x62 ≤ TableSource.rangeKey [0x63] := by decide
  have behind : ¬ key 0x62 ≤ TableSource.rangeKey [0x62] ∧
      TableSource.rangeKey [0x62] < key 0x62 := by decide
  refine ⟨?_, ?_⟩
  · rw [isOffset, countedSum_version count _ _ (fun number less => ?_) fun number => ?_]
    · rw [file, isFirst number less]
      exact if_pos before.1
    · rw [file, isSecond]
      exact (if_neg behind.1).trans (if_pos behind.2)
  · rw [isOffset, countedSum_version count _ _ (fun number less => ?_) fun number => ?_]
    · rw [file, isFirst number less]
      exact if_pos before.2.1
    · rw [file, isSecond]
      exact if_pos before.2.2

/-- Two tables do not wrap around. -/
theorem totalSize_version : TableSource.totalSize (version 1) = 288 := rfl

theorem approximateSizes_consistent_two : ∃ first second,
    (source 1).getApproximateSizes (version 1)
        [([0x61], [0x62]), ([0x62], [0x63]), ([0x61], [0x63])] =
      .ok [first, second, first + second] :=
  (TableSource.approximateSizes_consistent (source 1) (version 1) (version_opens 1)
    (by rw [totalSize_version]; decide)).2.2 [0x61] [0x62] [0x63] rfl rfl

/-- With 2^59 tables of 144 bytes for each of two keys, the offset behind the first ones is greater
than the one behind all of them. -/
theorem approximateSizes_wrap : ¬ ∀ (source : TableSource Bytes Bytes)
    (version : Version Bytes Bytes), source.Opens version →
    ∀ first second : InternalKey Bytes, first.tag < 2 ^ 64 → second.tag < 2 ^ 64 →
      first ≤ second → ∃ start limit, source.approximateOffsetOf version first = .ok start ∧
        source.approximateOffsetOf version second = .ok limit ∧ start ≤ limit := by
  intro always
  obtain ⟨start, limit, isStart, isLimit, atMost⟩ := always (source (2 ^ 59)) (version (2 ^ 59))
    (version_opens (2 ^ 59)) (TableSource.rangeKey [0x62]) (TableSource.rangeKey [0x63])
    (TableSource.rangeKey_tag_lt _) (TableSource.rangeKey_tag_lt _)
    (@TableSource.rangeKey_mono _ _ [0x62] [0x63] rfl)
  obtain ⟨first, second⟩ := approximateOffsetOf_version (2 ^ 59)
  obtain rfl := Except.ok.inj (isStart.symm.trans first)
  obtain rfl := Except.ok.inj (isLimit.symm.trans second)
  exact absurd atMost (by decide)

end WrappingSizes

end LevelDb
