/-
This file models `RepairDB` (`db/repair`): it lists the files of a directory, makes a table of
every log, scans every table, and writes a manifest with the tables that could be scanned, all at
level 0. What becomes of a log is a parameter, and so are the calls of the Env. Numbers of files do
not wrap.

`WinEnv::GetFileSize` does not set the size. So every table that was not made of a log is opened as
an empty file, which fails, and it is archived instead of being kept.
-/

import LevelDb.LogRoundTrip
import LevelDb.VersionEditCodec
import LevelDb.FileName
import LevelDb.Sst.CacheTransparency
import LevelDb.Sst.TableBuilder

namespace LevelDb

open Lib

/-! ### The Env -/

/-- The calls that repairing makes: `GetFileSize`, with what the size was before it, `RenameFile`,
`NewWritableFile`, the appends to a new file, and its `Close`. `archives` says which files
`ArchiveFile` can move away, and `inCache` which tables the cache still holds. -/
structure RepairEnv where
  options : Sst.Options
  comparators : Nat → Sst.Comparator
  comparatorName : Bytes
  getFileSize : Bytes → Nat → Directory → Bool × Nat × Directory
  renameFile : Bytes → Bytes → Directory → Bool × Directory
  creates : Bytes → Bool
  outcomes : List (Option (String × Nat))
  closes : Bytes → Bool
  archives : Bytes → Bool
  inCache : Nat → Bool
  cacheId : Nat
  rounds : Nat

/-- `WinEnv::GetFileSize`. It opens the file with `OPEN_ALWAYS`, which makes it if there is none,
and fails if the low word of the size is 0. An invalid handle is not 0, and has no size of 0. -/
def winGetFileSize (gotHandle : Bytes → Bool) (name : Bytes) (size : Nat) (directory : Directory) :
    Bool × Nat × Directory :=
  if gotHandle name then
    let contents := (directory name).getD []
    (contents.length % 2 ^ 32 ≠ 0, size, Function.update directory name (some contents))
  else (true, size, directory)

/-- `WinEnv`. -/
def RepairEnv.onWindows (env : RepairEnv) (gotHandle : Bytes → Bool) : RepairEnv :=
  { env with getFileSize := winGetFileSize gotHandle }

/-! ### Scanning a table -/

/-- The loop of a scan: the entries that an iterator stands on one after another, and the status
behind them. It ends when it runs out of turns. -/
def visitEntries (env : RepairEnv) (table : Sst.Table) :
    Nat → TwoLevelIterator (Except Sst.Fault Sst.BlockCursor) (Except Sst.Fault Sst.BlockCursor)
      Sst.Table.Failure → Option (List (Bytes × Bytes) × Option Sst.Table.Failure)
  | 0, _ => none
  | turns + 1, it =>
    let levels := table.levels env.comparators ⟨env.options.paranoidChecks, true⟩
    match it.entry levels with
    | none => some ([], it.getStatus levels)
    | some entry => do
      let next ← it.step levels env.rounds .next
      let rest ← visitEntries env table turns next
      some (entry :: rest.1, rest.2)

/-- A scan of an open table. -/
def scanEntries (env : RepairEnv) (table : Sst.Table) :
    Option (List (Bytes × Bytes) × Option Sst.Table.Failure) := do
  let first ← table.newIterator.step
    (table.levels env.comparators ⟨env.options.paranoidChecks, true⟩) env.rounds .seekToFirst
  visitEntries env table env.rounds first

/-- `TableInfo`. -/
structure TableInfo where
  number : Nat
  fileSize : Nat
  smallest : Bytes
  largest : Bytes
  maxSequence : Nat
  deriving DecidableEq, Repr

/-- `ParseInternalKey`: the sequence number. -/
def sequenceOf (key : Bytes) : Option Nat :=
  if key.length < 8 then none
  else (parseInternalKey (InternalKey.decodeFrom key)).map ParsedInternalKey.sequence

/-- What a scan finds out. Keys that cannot be parsed are passed over. -/
def TableInfo.scanned (number fileSize : Nat) (entries : List (Bytes × Bytes)) : TableInfo :=
  let keys := (entries.map Prod.fst).filter fun key => (sequenceOf key).isSome
  { number
    fileSize
    smallest := keys.head?.getD []
    largest := keys.getLast?.getD []
    maxSequence := (keys.filterMap sequenceOf).foldl max 0 }

/-! ### The repairer -/

/-- `Repairer`. `cached` are the tables that were opened. -/
structure Repairer where
  directory : Directory
  cached : Nat → Option Sst.Table
  manifests : List Bytes
  tableNumbers : List Nat
  logs : List Nat
  tables : List TableInfo
  nextFileNumber : Nat

namespace Repairer

/-- The constructor. -/
def new (directory : Directory) : Repairer where
  directory := directory
  cached := fun _ => none
  manifests := []
  tableNumbers := []
  logs := []
  tables := []
  nextFileNumber := 1

/-- One name in the loop of `FindFiles`. -/
def findFile (repairer : Repairer) (name : Bytes) : Repairer :=
  match parseFileName name with
  | none => repairer
  | some (_, .kDescriptorFile) => { repairer with manifests := repairer.manifests ++ [name] }
  | some (number, type) =>
    let repairer := { repairer with nextFileNumber := max repairer.nextFileNumber (number + 1) }
    match type with
    | .kLogFile => { repairer with logs := repairer.logs ++ [number] }
    | .kTableFile => { repairer with tableNumbers := repairer.tableNumbers ++ [number] }
    | _ => repairer

/-- `FindFiles`. -/
def findFiles (repairer : Repairer) (filenames : List Bytes) : Repairer :=
  filenames.foldl findFile repairer

/-- `ArchiveFile`. -/
def archiveFile (env : RepairEnv) (repairer : Repairer) (name : Bytes) : Repairer :=
  if env.archives name then
    { repairer with directory := Function.update repairer.directory name none }
  else repairer

/-- What becomes of a log: it cannot be opened, nothing is saved, or a table is written and
opened. -/
inductive Conversion
  | unreadable
  | nothing
  | table (contents : Bytes) (opened : Sst.Table)

/-- `ConvertLogToTable`. -/
def convertLogToTable (conversion : Conversion) (repairer : Repairer) : Repairer :=
  let number := repairer.nextFileNumber
  match conversion with
  | .unreadable => repairer
  | .nothing => { repairer with
      nextFileNumber := number + 1
      directory := Function.update repairer.directory (tableFileName number) none }
  | .table contents opened => { repairer with
      nextFileNumber := number + 1
      directory := Function.update repairer.directory (tableFileName number) (some contents)
      cached := Function.update repairer.cached number (some opened)
      tableNumbers := repairer.tableNumbers ++ [number] }

/-- `ConvertLogFilesToTables`. -/
def convertLogFilesToTables (env : RepairEnv) (conversions : Nat → Conversion)
    (repairer : Repairer) : Repairer :=
  repairer.logs.foldl (fun repairer log =>
    (repairer.convertLogToTable (conversions log)).archiveFile env (logFileName log)) repairer

/-- `TableCache::FindTable`: the table, if it can be opened. A fault of the model ends the run. -/
def findTable (env : RepairEnv) (repairer : Repairer) (number fileSize : Nat) :
    Option (Option Sst.Table × Repairer) :=
  match (repairer.cached number).filter fun _ => env.inCache number with
  | some table => some (some table, repairer)
  | none =>
    match (repairer.directory (tableFileName number)).or
        (repairer.directory (sstTableFileName number)) with
    | none => some (none, repairer)
    | some contents =>
      match Sst.Table.openFile env.options (.ofBytes contents) fileSize env.cacheId with
      | .error _ => none
      | .ok (.error _) => some (none, repairer)
      | .ok (.ok table) => some (some table,
          { repairer with cached := Function.update repairer.cached number (some table) })

/-- The entries of a table, whether the status behind them is OK, and the repairer. -/
def iterate (env : RepairEnv) (repairer : Repairer) (number fileSize : Nat) :
    Option ((List (Bytes × Bytes) × Bool) × Repairer) := do
  match ← repairer.findTable env number fileSize with
  | (none, repairer) => some (([], false), repairer)
  | (some table, repairer) =>
    let scanned ← scanEntries env table
    some ((scanned.1, scanned.2.isNone), repairer)

/-- The end of `RepairTable`, when entries were copied. -/
def replaceTable (env : RepairEnv) (repairer : Repairer) (copy : Bytes) (info : TableInfo)
    (final : Sst.TableBuilder) : Repairer :=
  let written := Function.update repairer.directory copy (some final.file.contents)
  let renamed := env.renameFile copy (tableFileName info.number) written
  if final.status = none ∧ env.closes copy then
    if renamed.1 then
      { repairer with
        directory := renamed.2
        tables := repairer.tables ++ [{ info with fileSize := final.offset }] }
    else { repairer with directory := Function.update renamed.2 copy none }
  else { repairer with directory := Function.update written copy none }

/-- The end of `RepairTable`, when there were no entries. The empty copy stays behind. -/
def abandonTable (env : RepairEnv) (repairer : Repairer) (copy : Bytes) : Repairer :=
  if env.closes copy then repairer
  else { repairer with directory := Function.update repairer.directory copy none }

/-- `RepairTable`. -/
def repairTable (env : RepairEnv) (repairer : Repairer) (source : Bytes) (info : TableInfo) :
    Option Repairer := do
  let copy := tableFileName repairer.nextFileNumber
  let repairer := { repairer with nextFileNumber := repairer.nextFileNumber + 1 }
  if env.creates copy then
    let repairer :=
      { repairer with directory := Function.update repairer.directory copy (some []) }
    let (scanned, repairer) ← repairer.iterate env info.number info.fileSize
    let builder := scanned.1.foldl
      (fun builder entry => builder.add env.comparators entry.1 entry.2)
      (Sst.TableBuilder.new env.options ⟨[], env.outcomes⟩)
    let archived := repairer.archiveFile env source
    if scanned.1 = [] then some (archived.abandonTable env copy)
    else
      match builder.finish env.comparators with
      | .error _ => none
      | .ok final => some (archived.replaceTable env copy info final)
  else some repairer

/-- The name and the size under which `ScanTable` finds a table; the size starts as 0. -/
def findSize (env : RepairEnv) (repairer : Repairer) (number : Nat) :
    Bool × Bytes × Nat × Repairer :=
  let (found, fileSize, directory) := env.getFileSize (tableFileName number) 0 repairer.directory
  if found then (true, tableFileName number, fileSize, { repairer with directory })
  else
    let (found, fileSize, directory) :=
      env.getFileSize (sstTableFileName number) fileSize directory
    (found, sstTableFileName number, fileSize, { repairer with directory })

/-- `ScanTable`. -/
def scanTable (env : RepairEnv) (repairer : Repairer) (number : Nat) : Option Repairer := do
  let (found, name, fileSize, repairer) := repairer.findSize env number
  if found then
    let (scanned, repairer) ← repairer.iterate env number fileSize
    let info := TableInfo.scanned number fileSize scanned.1
    if scanned.2 then some { repairer with tables := repairer.tables ++ [info] }
    else repairer.repairTable env name info
  else
    some ((repairer.archiveFile env (tableFileName number)).archiveFile env
      (sstTableFileName number))

/-- `ExtractMetaData`. -/
def extractMetaData (env : RepairEnv) (repairer : Repairer) : Option Repairer :=
  repairer.tableNumbers.foldlM (scanTable env) repairer

/-- The edit of `WriteDescriptor`. -/
def descriptor (env : RepairEnv) (repairer : Repairer) : EditRecord :=
  { comparator := some env.comparatorName
    logNumber := some 0
    nextFileNumber := some repairer.nextFileNumber
    lastSequence := some ((repairer.tables.map TableInfo.maxSequence).foldl max 0)
    newFiles := repairer.tables.map fun info =>
      (0, ⟨info.number, info.fileSize, info.smallest, info.largest⟩) }

/-- `WriteDescriptor`, when all of its calls succeed: the directory with the new manifest. -/
def writeDescriptor (env : RepairEnv) (repairer : Repairer) : Directory :=
  let archived := repairer.manifests.foldl (archiveFile env) repairer
  (setCurrentFile (Function.update archived.directory (descriptorFileName 1)
    (some (Log.written [(repairer.descriptor env).encodeTo]))) 1 true true).2

/-- `RepairDB` until the manifest is written. -/
def run (env : RepairEnv) (conversions : Nat → Conversion) (filenames : List Bytes)
    (directory : Directory) : Option Repairer :=
  (((new directory).findFiles filenames).convertLogFilesToTables env
    conversions).extractMetaData env

/-! ### Only tables of logs are found -/

/-- No table with a number below `first` was opened or is going to be listed. -/
structure NewOnly (first : Nat) (repairer : Repairer) : Prop where
  next : first ≤ repairer.nextFileNumber
  cached : ∀ number, (repairer.cached number).isSome → first ≤ number
  tables : ∀ info ∈ repairer.tables, first ≤ info.number

variable {env : RepairEnv} {first : Nat} {repairer after : Repairer}

theorem NewOnly.withDirectory (newOnly : NewOnly first repairer) (directory : Directory) :
    NewOnly first { repairer with directory } :=
  ⟨newOnly.next, newOnly.cached, newOnly.tables⟩

theorem NewOnly.archiveFile (newOnly : NewOnly first repairer) (name : Bytes) :
    NewOnly first (repairer.archiveFile env name) := by
  rw [Repairer.archiveFile]
  split
  · exact newOnly.withDirectory _
  · exact newOnly

theorem NewOnly.convertLogToTable (newOnly : NewOnly first repairer) (conversion : Conversion) :
    NewOnly first (repairer.convertLogToTable conversion) := by
  have next : first ≤ repairer.nextFileNumber + 1 := newOnly.next.trans (Nat.le_succ _)
  cases conversion with
  | unreadable => exact newOnly
  | nothing => exact ⟨next, newOnly.cached, newOnly.tables⟩
  | table contents opened =>
    refine ⟨next, fun number isCached => ?_, newOnly.tables⟩
    by_cases same : number = repairer.nextFileNumber
    · exact same ▸ newOnly.next
    · refine newOnly.cached number ?_
      have kept : Function.update repairer.cached repairer.nextFileNumber (some opened) number =
          repairer.cached number := Function.update_of_ne same _ _
      exact kept ▸ isCached

theorem NewOnly.convertLogFilesToTables (newOnly : NewOnly first repairer)
    (conversions : Nat → Conversion) :
    NewOnly first (repairer.convertLogFilesToTables env conversions) :=
  List.foldlRecOn repairer.logs _ newOnly fun _ inductionHypothesis log _ =>
    (inductionHypothesis.convertLogToTable (conversions log)).archiveFile (logFileName log)

/-- A table that is opened as an empty file is found in the cache or not at all. -/
theorem findTable_empty {number : Nat} {found : Option Sst.Table}
    (finds : repairer.findTable env number 0 = some (found, after)) :
    after = repairer ∧ (found.isSome → (repairer.cached number).isSome) := by
  rw [findTable] at finds
  split at finds
  · next table isCached =>
    cases finds
    have held : repairer.cached number = some table := (Option.filter_eq_some_iff.mp isCached).1
    exact ⟨rfl, fun _ => Option.isSome_of_mem held⟩
  · split at finds
    · cases finds
      exact ⟨rfl, nofun⟩
    · cases finds
      exact ⟨rfl, nofun⟩

/-- Then the iterator over it has no entries, and its status is not OK. -/
theorem iterate_empty {number : Nat} {scanned : List (Bytes × Bytes) × Bool}
    (iterates : repairer.iterate env number 0 = some (scanned, after)) :
    after = repairer ∧ ((repairer.cached number).isSome ∨ scanned = ([], false)) := by
  rw [iterate] at iterates
  obtain ⟨⟨found, opened⟩, finds, isScanned⟩ := Option.bind_eq_some_iff.mp iterates
  obtain ⟨rfl, inCache⟩ := findTable_empty finds
  cases found with
  | none =>
    cases isScanned
    exact ⟨rfl, .inr rfl⟩
  | some table =>
    obtain ⟨entries, _, isResult⟩ := Option.bind_eq_some_iff.mp isScanned
    cases isResult
    exact ⟨rfl, .inl (inCache rfl)⟩

theorem NewOnly.replaceTable (newOnly : NewOnly first repairer) (copy : Bytes) {info : TableInfo}
    (isNew : first ≤ info.number) (final : Sst.TableBuilder) :
    NewOnly first (repairer.replaceTable env copy info final) := by
  rw [Repairer.replaceTable]
  split
  · split
    · refine ⟨newOnly.next, newOnly.cached, fun other member => ?_⟩
      rcases List.mem_append.mp member with listed | isLast
      · exact newOnly.tables other listed
      · rw [List.mem_singleton.mp isLast]
        exact isNew
    · exact newOnly.withDirectory _
  · exact newOnly.withDirectory _

theorem NewOnly.abandonTable (newOnly : NewOnly first repairer) (copy : Bytes) :
    NewOnly first (repairer.abandonTable env copy) := by
  rw [Repairer.abandonTable]
  split
  · exact newOnly
  · exact newOnly.withDirectory _

theorem NewOnly.repairTable (newOnly : NewOnly first repairer) {source : Bytes} {info : TableInfo}
    (noSize : info.fileSize = 0) (repairs : repairer.repairTable env source info = some after) :
    NewOnly first after := by
  rw [Repairer.repairTable] at repairs
  have numbered : NewOnly first { repairer with nextFileNumber := repairer.nextFileNumber + 1 } :=
    ⟨newOnly.next.trans (Nat.le_succ _), newOnly.cached, newOnly.tables⟩
  split at repairs
  · obtain ⟨⟨scanned, opened⟩, iterates, isResult⟩ := Option.bind_eq_some_iff.mp repairs
    rw [noSize] at iterates
    obtain ⟨rfl, inCache⟩ := iterate_empty iterates
    have archived := @NewOnly.archiveFile env _ _ (numbered.withDirectory
      (Function.update repairer.directory (tableFileName repairer.nextFileNumber) (some []))) source
    dsimp only at isResult
    split at isResult
    · cases isResult
      exact archived.abandonTable _
    · next entries =>
      split at isResult
      · cases isResult
      · cases isResult
        refine archived.replaceTable _ (newOnly.cached info.number ?_) _
        exact inCache.resolve_right fun isEmpty => entries (congrArg Prod.fst isEmpty)
  · cases repairs
    exact numbered

/-- On Windows the size stays what it was. -/
theorem findSize_onWindows (gotHandle : Bytes → Bool) (number : Nat) :
    ∃ found name directory, repairer.findSize (env.onWindows gotHandle) number =
      (found, name, 0, { repairer with directory }) := by
  have keepsSize : ∀ name size directory,
      ((env.onWindows gotHandle).getFileSize name size directory).2.1 = size := by
    intro name size directory
    show (winGetFileSize gotHandle name size directory).2.1 = size
    rw [winGetFileSize]
    split <;> rfl
  simp only [findSize, keepsSize]
  split
  · exact ⟨_, _, _, rfl⟩
  · exact ⟨_, _, _, rfl⟩

theorem NewOnly.scanTable (newOnly : NewOnly first repairer) {gotHandle : Bytes → Bool}
    {number : Nat} (scans : repairer.scanTable (env.onWindows gotHandle) number = some after) :
    NewOnly first after := by
  obtain ⟨found, name, directory, isFound⟩ :=
    @findSize_onWindows env repairer gotHandle number
  rw [Repairer.scanTable, isFound] at scans
  dsimp only at scans
  split at scans
  · obtain ⟨⟨scanned, opened⟩, iterates, isResult⟩ := Option.bind_eq_some_iff.mp scans
    obtain ⟨rfl, inCache⟩ := iterate_empty iterates
    dsimp only at isResult
    split at isResult
    · next isOk =>
      cases isResult
      refine ⟨newOnly.next, newOnly.cached, fun info member => ?_⟩
      rcases List.mem_append.mp member with listed | isLast
      · exact newOnly.tables info listed
      · rw [List.mem_singleton.mp isLast]
        refine newOnly.cached number (inCache.resolve_right fun failed => ?_)
        rw [failed] at isOk
        cases isOk
    · exact (newOnly.withDirectory directory).repairTable rfl isResult
  · cases scans
    exact ((newOnly.withDirectory directory).archiveFile _).archiveFile _

theorem NewOnly.extractMetaData (newOnly : NewOnly first repairer) {gotHandle : Bytes → Bool}
    (extracts : repairer.extractMetaData (env.onWindows gotHandle) = some after) :
    NewOnly first after := by
  rw [Repairer.extractMetaData] at extracts
  generalize repairer.tableNumbers = numbers at extracts
  induction numbers generalizing repairer with
  | nil =>
    cases extracts
    exact newOnly
  | cons number numbers inductionHypothesis =>
    rw [List.foldlM_cons] at extracts
    obtain ⟨middle, scans, rest⟩ := Option.bind_eq_some_iff.mp extracts
    exact inductionHypothesis (newOnly.scanTable scans) rest

/-! ### Numbers of files -/

theorem le_nextFileNumber_findFile (repairer : Repairer) (name : Bytes) :
    repairer.nextFileNumber ≤ (repairer.findFile name).nextFileNumber := by
  rw [findFile]
  split
  · exact le_rfl
  · exact le_rfl
  · dsimp only
    split <;> exact le_max_left _ _

theorem le_nextFileNumber_findFiles (repairer : Repairer) (filenames : List Bytes) :
    repairer.nextFileNumber ≤ (repairer.findFiles filenames).nextFileNumber := by
  induction filenames generalizing repairer with
  | nil => exact le_rfl
  | cons name filenames inductionHypothesis =>
    exact (le_nextFileNumber_findFile repairer name).trans
      (inductionHypothesis (repairer.findFile name))

theorem lt_nextFileNumber_findFile {name : Bytes} {number : Nat}
    (isTable : parseFileName name = some (number, .kTableFile)) :
    number < (repairer.findFile name).nextFileNumber := by
  rw [findFile, isTable]
  exact Nat.lt_of_succ_le (le_max_right _ _)

/-- New numbers are above those of all tables that were found. -/
theorem lt_nextFileNumber_findFiles {filenames : List Bytes} {name : Bytes} {number : Nat}
    (listed : name ∈ filenames) (isTable : parseFileName name = some (number, .kTableFile)) :
    number < (repairer.findFiles filenames).nextFileNumber := by
  induction filenames generalizing repairer with
  | nil => cases listed
  | cons other filenames inductionHypothesis =>
    rcases List.mem_cons.mp listed with rfl | inRest
    · exact (lt_nextFileNumber_findFile isTable).trans_le (le_nextFileNumber_findFiles _ filenames)
    · exact inductionHypothesis inRest

/-- Finding files neither opens nor lists a table. -/
theorem findFiles_fresh (repairer : Repairer) (filenames : List Bytes) :
    (repairer.findFiles filenames).cached = repairer.cached ∧
      (repairer.findFiles filenames).tables = repairer.tables := by
  have findFile_fresh : ∀ (repairer : Repairer) (name : Bytes),
      (repairer.findFile name).cached = repairer.cached ∧
        (repairer.findFile name).tables = repairer.tables := by
    intro repairer name
    rw [findFile]
    split
    · exact ⟨rfl, rfl⟩
    · exact ⟨rfl, rfl⟩
    · dsimp only
      split <;> exact ⟨rfl, rfl⟩
  induction filenames generalizing repairer with
  | nil => exact ⟨rfl, rfl⟩
  | cons name filenames inductionHypothesis =>
    obtain ⟨sameCached, sameTables⟩ := inductionHypothesis (repairer.findFile name)
    exact ⟨sameCached.trans (findFile_fresh repairer name).1,
      sameTables.trans (findFile_fresh repairer name).2⟩

/-! ### Repairing without logs -/

theorem findTable_uncached (uncached : repairer.cached = fun _ => none) (number : Nat) :
    repairer.findTable env number 0 = some (none, repairer) := by
  rw [findTable, uncached]
  dsimp only [Option.filter_none]
  split
  · rfl
  · rfl

theorem iterate_uncached (uncached : repairer.cached = fun _ => none) (number : Nat) :
    repairer.iterate env number 0 = some (([], false), repairer) := by
  rw [iterate, findTable_uncached uncached]
  rfl

theorem archiveFile_cached (env : RepairEnv) (repairer : Repairer) (name : Bytes) :
    (repairer.archiveFile env name).cached = repairer.cached := by
  rw [archiveFile]
  split <;> rfl

theorem abandonTable_cached (env : RepairEnv) (repairer : Repairer) (copy : Bytes) :
    (repairer.abandonTable env copy).cached = repairer.cached := by
  rw [abandonTable]
  split <;> rfl

/-- A table of which nothing can be read is only archived. -/
theorem repairTable_uncached (uncached : repairer.cached = fun _ => none) (source : Bytes)
    {info : TableInfo} (noSize : info.fileSize = 0) : ∃ after,
      repairer.repairTable env source info = some after ∧ after.cached = fun _ => none := by
  rw [repairTable, noSize]
  split
  · have iterates := @iterate_uncached env { repairer with
      nextFileNumber := repairer.nextFileNumber + 1
      directory := Function.update repairer.directory (tableFileName repairer.nextFileNumber)
        (some []) } uncached info.number
    dsimp only
    rw [iterates]
    exact ⟨_, rfl,
      (abandonTable_cached _ _ _).trans ((archiveFile_cached _ _ _).trans uncached)⟩
  · exact ⟨_, rfl, uncached⟩

theorem scanTable_uncached (uncached : repairer.cached = fun _ => none)
    (gotHandle : Bytes → Bool) (number : Nat) : ∃ after,
      repairer.scanTable (env.onWindows gotHandle) number = some after ∧
        after.cached = fun _ => none := by
  obtain ⟨found, name, directory, isFound⟩ :=
    @findSize_onWindows env repairer gotHandle number
  have stillUncached : ({ repairer with directory } : Repairer).cached = fun _ => none := uncached
  rw [scanTable, isFound]
  dsimp only
  split
  · rw [iterate_uncached stillUncached]
    exact repairTable_uncached stillUncached name rfl
  · exact ⟨_, rfl, (archiveFile_cached _ _ _).trans ((archiveFile_cached _ _ _).trans uncached)⟩

/-- Without logs repairing returns on Windows. -/
theorem run_returns (gotHandle : Bytes → Bool) (conversions : Nat → Conversion)
    {filenames : List Bytes} {directory : Directory}
    (noLogs : ((new directory).findFiles filenames).logs = []) :
    ∃ repaired, run (env.onWindows gotHandle) conversions filenames directory = some repaired := by
  have uncached : ((new directory).findFiles filenames).cached = fun _ => none :=
    (findFiles_fresh (new directory) filenames).1
  rw [run, convertLogFilesToTables, noLogs, List.foldl_nil, extractMetaData]
  generalize (new directory).findFiles filenames = repairer at uncached
  generalize repairer.tableNumbers = numbers
  induction numbers generalizing repairer with
  | nil => exact ⟨repairer, rfl⟩
  | cons number numbers inductionHypothesis =>
    obtain ⟨after, scans, stillUncached⟩ :=
      @scanTable_uncached env repairer uncached gotHandle number
    rw [List.foldlM_cons, scans]
    exact inductionHypothesis after stillUncached

/-! ### Repairing on Windows -/

variable {gotHandle : Bytes → Bool} {conversions : Nat → Conversion} {filenames : List Bytes}
  {directory : Directory} {repaired : Repairer}

/-- The manifest lists only tables with new numbers. -/
theorem not_listed_of_table
    (returns : run (env.onWindows gotHandle) conversions filenames directory = some repaired)
    {name : Bytes} {number : Nat} (listed : name ∈ filenames)
    (isTable : parseFileName name = some (number, .kTableFile)) :
    ∀ file ∈ (repaired.descriptor env).newFiles, file.2.number ≠ number := by
  obtain ⟨noneCached, noTables⟩ := findFiles_fresh (new directory) filenames
  have initially : NewOnly ((new directory).findFiles filenames).nextFileNumber
      ((new directory).findFiles filenames) := by
    refine ⟨le_rfl, fun other isCached => ?_, fun info member => ?_⟩
    · rw [noneCached] at isCached
      cases isCached
    · rw [noTables] at member
      cases member
  have atEnd := (initially.convertLogFilesToTables conversions).extractMetaData returns
  intro file member
  obtain ⟨info, inTables, rfl⟩ := List.mem_map.mp member
  exact ((lt_nextFileNumber_findFiles listed isTable).trans_le (atEnd.tables info inTables)).ne'

/-- A table file that can be opened with its size and read to its end, and its entries. -/
structure ReadableTable (env : RepairEnv) (filenames : List Bytes) (directory : Directory)
    (name : Bytes) (number : Nat) (contents : Bytes) (entries : List (Bytes × Bytes)) : Prop where
  listed : name ∈ filenames
  isTable : parseFileName name = some (number, .kTableFile)
  present : directory name = some contents
  reads : ∃ table rounds,
    Sst.Table.openFile env.options (.ofBytes contents) contents.length env.cacheId =
      .ok (.ok table) ∧ scanEntries { env with rounds } table = some (entries, none)

/-- The table is still in place, and the manifest lists it at level 0 with its size and its
smallest and largest keys. -/
def Keeps (env : RepairEnv) (repaired : Repairer) (name : Bytes) (number : Nat)
    (contents : Bytes) (entries : List (Bytes × Bytes)) : Prop :=
  repaired.writeDescriptor env name = some contents ∧
    (0, ⟨number, contents.length, (entries.head?.map Prod.fst).getD [],
      (entries.getLast?.map Prod.fst).getD []⟩) ∈ (repaired.descriptor env).newFiles

/-- On Windows repairing keeps no table that can be read. -/
theorem not_keeps_readable
    (returns : run (env.onWindows gotHandle) conversions filenames directory = some repaired)
    {name : Bytes} {number : Nat} {contents : Bytes} {entries : List (Bytes × Bytes)}
    (readable : ReadableTable env filenames directory name number contents entries) :
    ¬Keeps env repaired name number contents entries := fun keeps =>
  not_listed_of_table returns readable.listed readable.isTable _ keeps.2 rfl

/-! ### A table that is lost -/

/-- An order of keys that makes them no shorter. -/
def plainComparator : Sst.Comparator := ⟨compare, fun start _ => start, id⟩

/-- A table with one entry. -/
def oneEntryTable : Bytes :=
  match ((Sst.TableBuilder.new Sst.plainOptions ⟨[], []⟩).add (fun _ => plainComparator)
    [107, 1, 1, 0, 0, 0, 0, 0, 0] [118]).finish fun _ => plainComparator with
  | .ok final => final.file.contents
  | .error _ => []

/-- An Env in which every call succeeds. -/
def plainEnv : RepairEnv where
  options := Sst.plainOptions
  comparators := fun _ => plainComparator
  comparatorName := [99]
  getFileSize := fun _ size directory => (true, size, directory)
  renameFile := fun source target directory =>
    (true, Function.update (Function.update directory target (directory source)) source none)
  creates := fun _ => true
  outcomes := []
  closes := fun _ => true
  archives := fun _ => true
  inCache := fun _ => true
  cacheId := 0
  rounds := 10

/-- A directory with one table. -/
def oneTable : Directory := fun name =>
  if name = tableFileName 5 then some oneEntryTable else none

/-- The table that was opened. -/
def openedTable : Except Sst.Fault (Except String Sst.Table) → Option Sst.Table
  | .ok (.ok table) => some table
  | _ => none

theorem openedTable_eq_some {opened : Except Sst.Fault (Except String Sst.Table)}
    {table : Sst.Table} (isOpened : openedTable opened = some table) : opened = .ok (.ok table) := by
  cases opened with
  | error fault => cases isOpened
  | ok result =>
    cases result with
    | error message => cases isOpened
    | ok other => rw [show other = table from Option.some.inj isOpened]

theorem readableTable_oneTable : ReadableTable plainEnv [tableFileName 5] oneTable (tableFileName 5)
    5 oneEntryTable [([107, 1, 1, 0, 0, 0, 0, 0, 0], [118])] where
  listed := List.mem_singleton.mpr rfl
  isTable := by decide +kernel
  present := if_pos rfl
  reads := by
    have scans : ((openedTable (Sst.Table.openFile plainEnv.options (.ofBytes oneEntryTable)
        oneEntryTable.length plainEnv.cacheId)).any fun table => decide (scanEntries plainEnv table =
          some ([([107, 1, 1, 0, 0, 0, 0, 0, 0], [118])], none))) = true := by decide +kernel
    obtain ⟨table, isTable, isTrue⟩ := (Option.any_eq_true _ _).mp scans
    exact ⟨table, 10, openedTable_eq_some isTable, of_decide_eq_true isTrue⟩

/-- The table is not kept. -/
theorem oneTable_lost : ∃ repaired,
    run (plainEnv.onWindows fun _ => true) (fun _ => .nothing) [tableFileName 5] oneTable =
        some repaired ∧
      ReadableTable plainEnv [tableFileName 5] oneTable (tableFileName 5) 5 oneEntryTable
        [([107, 1, 1, 0, 0, 0, 0, 0, 0], [118])] ∧
      ¬Keeps plainEnv repaired (tableFileName 5) 5 oneEntryTable
        [([107, 1, 1, 0, 0, 0, 0, 0, 0], [118])] := by
  obtain ⟨repaired, returns⟩ := @run_returns plainEnv (fun _ => true) (fun _ => .nothing)
    [tableFileName 5] oneTable (by decide +kernel)
  exact ⟨repaired, returns, readableTable_oneTable,
    not_keeps_readable returns readableTable_oneTable⟩

/-- So not every table that can be read is kept. -/
theorem oneTable_not_kept : ¬∀ repaired,
    run (plainEnv.onWindows fun _ => true) (fun _ => .nothing) [tableFileName 5] oneTable =
        some repaired →
      ∀ name number contents entries,
        ReadableTable plainEnv [tableFileName 5] oneTable name number contents entries →
          Keeps plainEnv repaired name number contents entries := by
  intro kept
  obtain ⟨repaired, returns⟩ := @run_returns plainEnv (fun _ => true) (fun _ => .nothing)
    [tableFileName 5] oneTable (by decide +kernel)
  have keeps := kept repaired returns _ _ _ _ readableTable_oneTable
  exact not_listed_of_table returns readableTable_oneTable.listed readableTable_oneTable.isTable _
    keeps.2 rfl

end Repairer

end LevelDb
