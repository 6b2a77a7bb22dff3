/-
This file models the reference counts of `db/version_set.cc`: the `Version` and `FileMetaData`
objects a version set keeps on the heap, the circular list its versions are threaded into, the
builders that make new versions, and the references that reads, iterators and compactions hold.
Objects are named by addresses that are never used twice, and address 0 is `dummy_versions_`.

The levels of an edit are below `kNumLevels`, as `VersionEdit::DecodeFrom` checks. The compaction
pointers `Builder::Apply` copies belong to the version set and are no references.
-/

import LevelDb.Lib.Buckets
import LevelDb.Lib.RefCount
import LevelDb.Lib.Ring
import LevelDb.Lib.Run
import LevelDb.VersionEdit

namespace LevelDb

variable {α β : Type}

instance [Inhabited α] : Inhabited (InternalKey α) := ⟨⟨default, 0⟩⟩

instance [Inhabited α] : Inhabited (FileMetaData α β) := ⟨⟨0, 0, 1073741824, default, default, []⟩⟩

/-- What a builder has collected for one level: the numbers of deleted files and the addresses of
the added objects, sorted by smallest key. -/
structure LevelRefs where
  deletedFiles : Finset Nat
  addedFiles : List Nat

structure BuilderObject where
  base : Nat
  levels : Nat → LevelRefs

/-- The addresses in an array of lists with one list a level, level by level. -/
def listing (files : Nat → List Nat) : List Nat := Lib.gather Config.kNumLevels files

/-- The references a builder owns. -/
def BuilderObject.added (builder : BuilderObject) : List Nat :=
  listing fun level => (builder.levels level).addedFiles

def BuilderObject.setLevel (builder : BuilderObject) (level : Nat) (state : LevelRefs) :
    BuilderObject :=
  { builder with levels := Function.update builder.levels level state }

/-- The order of the objects at two addresses. -/
def objectLess [LinearOrder α] (files : Lib.Heap (FileMetaData α β)) (first second : Nat) : Bool :=
  bySmallestKey (files.value first) (files.value second)

/-- Insert an object into the set of a level; its number is no longer deleted. -/
def LevelRefs.insert [LinearOrder α] (state : LevelRefs) (files : Lib.Heap (FileMetaData α β))
    (address number : Nat) : LevelRefs :=
  ⟨state.deletedFiles.erase number, Lib.setInsert (objectLess files) address state.addedFiles⟩

/-- The heap of a version set. A version object holds its `files_`, and `clients` has one entry
for each reference that was taken by `Version::Ref` from outside. -/
structure VersionHeap (α β : Type) where
  files : Lib.Heap (FileMetaData α β)
  versions : Lib.Heap (Nat → List Nat)
  links : Lib.Links Nat
  builders : Lib.Shelf BuilderObject
  current : Nat
  clients : List Nat
  nextAddress : Nat

namespace VersionHeap

/-- The constructor of the version set, which appends an empty version. -/
def new [Inhabited α] : VersionHeap α β where
  files := ⟨∅, fun _ => ⟨0, default⟩⟩
  versions := Lib.Shelf.put ⟨∅, fun _ => ⟨0, fun _ => []⟩⟩ 1 ⟨1, fun _ => []⟩
  links := Lib.Links.append ⟨fun node => node, fun node => node⟩ 0 1
  builders := ⟨∅, fun _ => ⟨0, fun _ => ⟨∅, []⟩⟩⟩
  current := 1
  clients := []
  nextAddress := 2

/-! ### Versions -/

/-- `new Version`, which is linked to itself. -/
def newVersion (heap : VersionHeap α β) : VersionHeap α β :=
  { heap with
    versions := heap.versions.put heap.nextAddress ⟨0, fun _ => []⟩
    links := (heap.links.setNext heap.nextAddress heap.nextAddress).setPrev heap.nextAddress
      heap.nextAddress
    nextAddress := heap.nextAddress + 1 }

/-- `Version::~Version` -/
def deleteVersion (heap : VersionHeap α β) (version : Nat) : VersionHeap α β :=
  { heap with
    links := heap.links.remove version
    files := (listing (heap.versions.value version)).foldl Lib.Heap.release heap.files
    versions := Lib.Shelf.remove heap.versions version }

/-- `Version::Ref` -/
def refVersion (heap : VersionHeap α β) (version : Nat) : VersionHeap α β :=
  { heap with versions := heap.versions.ref version }

/-- `Version::Unref` -/
def unrefVersion (heap : VersionHeap α β) (version : Nat) : VersionHeap α β :=
  let lowered := { heap with versions := heap.versions.unref version }
  if lowered.versions.refs version = 0 then lowered.deleteVersion version else lowered

/-- `VersionSet::AppendVersion` -/
def appendVersion (heap : VersionHeap α β) (version : Nat) : VersionHeap α β :=
  let unreffed := heap.unrefVersion heap.current
  let installed := { unreffed with current := version }.refVersion version
  { installed with links := installed.links.append 0 version }

/-! ### Builders -/

/-- `Builder::Builder` -/
def newBuilder (heap : VersionHeap α β) (base : Nat) : VersionHeap α β :=
  { heap.refVersion base with
    builders := heap.builders.put heap.nextAddress ⟨base, fun _ => ⟨∅, []⟩⟩
    nextAddress := heap.nextAddress + 1 }

/-- `Builder::~Builder` -/
def deleteBuilder (heap : VersionHeap α β) (builder : Nat) : VersionHeap α β :=
  { heap with
    files := (heap.builders.file builder).added.foldl Lib.Heap.release heap.files
    builders := heap.builders.remove builder }.unrefVersion (heap.builders.file builder).base

/-- The deletions of `Builder::Apply`. -/
def applyDeleted (heap : VersionHeap α β) (builder : Nat) (edit : VersionEdit α β) :
    VersionHeap α β :=
  { heap with
    builders := heap.builders.put builder
      { heap.builders.file builder with
        levels := fun level =>
          { (heap.builders.file builder).levels level with
            deletedFiles := ((heap.builders.file builder).levels level).deletedFiles ∪
              edit.deletedFilesAt level } } }

/-- `Builder::Apply` for one new file: an object with one reference is created and inserted into
the set of the level. -/
def applyNew [LinearOrder α] (builder : Nat) (heap : VersionHeap α β)
    (new : Nat × FileMetaData α β) : VersionHeap α β :=
  let files : Lib.Heap (FileMetaData α β) :=
    heap.files.put heap.nextAddress ⟨1, preparedFile new.2⟩
  let object := heap.builders.file builder
  { heap with
    files := files
    builders := heap.builders.put builder
      (object.setLevel new.1 ((object.levels new.1).insert files heap.nextAddress new.2.number))
    nextAddress := heap.nextAddress + 1 }

/-- `Builder::Apply` -/
def apply [LinearOrder α] (heap : VersionHeap α β) (builder : Nat) (edit : VersionEdit α β) :
    VersionHeap α β :=
  edit.newFiles.foldl (applyNew builder) (heap.applyDeleted builder edit)

/-- `Builder::MaybeAddFile` -/
def maybeAddFile (builder version level : Nat) (heap : VersionHeap α β) (file : Nat) :
    VersionHeap α β :=
  if (heap.files.value file).number ∈ ((heap.builders.file builder).levels level).deletedFiles then
    heap
  else
    let files := heap.versions.value version
    { heap with
      files := heap.files.ref file
      versions := heap.versions.put version
        ⟨heap.versions.refs version, Function.update files level (files level ++ [file])⟩ }

/-- `Builder::SaveTo` for one level. -/
def saveLevelTo [LinearOrder α] (builder version : Nat) (heap : VersionHeap α β) (level : Nat) :
    VersionHeap α β :=
  let object := heap.builders.file builder
  let merged := Lib.mergeInto (objectLess heap.files) (object.levels level).addedFiles
    (heap.versions.value object.base level)
  merged.foldl (maybeAddFile builder version level) heap

/-- `Builder::SaveTo` -/
def saveTo [LinearOrder α] (heap : VersionHeap α β) (builder version : Nat) : VersionHeap α β :=
  (List.range Config.kNumLevels).foldl (saveLevelTo builder version) heap

end VersionHeap

/-! ### Operations in any order -/

inductive RefAction (α β : Type)
  | newVersion
  | newBuilder (base : Nat)
  | apply (builder : Nat) (edit : VersionEdit α β)
  | saveTo (builder version : Nat)
  | deleteBuilder (builder : Nat)
  | appendVersion (version : Nat)
  | deleteVersion (version : Nat)
  | ref (version : Nat)
  | unref (version : Nat)

namespace VersionHeap

/-- A version that the list of versions does not have yet. -/
def Unlisted (heap : VersionHeap α β) (version : Nat) : Prop :=
  version ∈ heap.versions.numbers ∧ heap.versions.refs version = 0

instance (heap : VersionHeap α β) (version : Nat) : Decidable (heap.Unlisted version) :=
  inferInstanceAs (Decidable (_ ∧ _))

/-- A version somebody holds a reference to. -/
def Live (heap : VersionHeap α β) (version : Nat) : Prop :=
  version ∈ heap.versions.numbers ∧ 0 < heap.versions.refs version

instance (heap : VersionHeap α β) (version : Nat) : Decidable (heap.Live version) :=
  inferInstanceAs (Decidable (_ ∧ _))

/-- One operation; `none` where its objects do not exist, an assertion of it fails or the client
has no reference to give back. -/
def step [LinearOrder α] (heap : VersionHeap α β) : RefAction α β → Option (VersionHeap α β)
  | .newVersion => some heap.newVersion
  | .newBuilder base => if heap.Live base then some (heap.newBuilder base) else none
  | .apply builder edit =>
    if builder ∈ heap.builders.numbers ∧ ∀ new ∈ edit.newFiles, new.1 < Config.kNumLevels then
      some (heap.apply builder edit)
    else none
  | .saveTo builder version =>
    if builder ∈ heap.builders.numbers ∧ heap.Unlisted version then
      some (heap.saveTo builder version)
    else none
  | .deleteBuilder builder =>
    if builder ∈ heap.builders.numbers then some (heap.deleteBuilder builder) else none
  | .appendVersion version =>
    if heap.Unlisted version then some (heap.appendVersion version) else none
  | .deleteVersion version =>
    if heap.Unlisted version then some (heap.deleteVersion version) else none
  | .ref version =>
    if heap.Live version then
      some { heap.refVersion version with clients := version :: heap.clients }
    else none
  | .unref version =>
    if version ∈ heap.clients then
      some { heap.unrefVersion version with clients := heap.clients.erase version }
    else none

/-- What tells the files in one set of a builder apart. -/
def setKey (file : FileMetaData α β) : InternalKey α × Nat := (file.smallest, file.number)

/-- The keys of the files a builder has added to a level. -/
def addedKeys (heap : VersionHeap α β) (builder level : Nat) : List (InternalKey α × Nat) :=
  ((heap.builders.file builder).levels level).addedFiles.map fun file =>
    setKey (heap.files.value file)

/-- The operation gives a builder, at one level, two new files with the same smallest key and the
same number. -/
def AddsTwice (heap : VersionHeap α β) : RefAction α β → Prop
  | .apply builder edit => ∃ level < Config.kNumLevels,
      ¬(heap.addedKeys builder level ++ (edit.newFilesAt level).map setKey).Nodup
  | _ => False

/-! ### References -/

/-- The versions alive that list a file, each as often as it lists it. -/
def listings (heap : VersionHeap α β) (file : Nat) : Nat :=
  heap.versions.total fun object => (listing object.value).count file

/-- The references of builders to a file. -/
def additions (heap : VersionHeap α β) (file : Nat) : Nat :=
  heap.builders.total fun object => object.added.count file

def fileRefs (heap : VersionHeap α β) (file : Nat) : Nat := heap.listings file + heap.additions file

/-- The references to a version: `current_`, the clients and the builders that start from it. -/
def versionRefs (heap : VersionHeap α β) (version : Nat) : Nat :=
  (if version = heap.current then 1 else 0) + heap.clients.count version +
    heap.builders.total fun object => if version = object.base then 1 else 0

/-- The reference counts are exact: every file that exists counts the versions that list it, a
file exists as long as some version does, and the circular list holds the versions with
references. -/
structure Exact (heap : VersionHeap α β) : Prop where
  refs_eq : ∀ file ∈ heap.files.numbers, heap.files.refs file = heap.listings file
  mem_iff : ∀ file, file ∈ heap.files.numbers ↔ 0 < heap.listings file
  ring : ∃ members, heap.links.Ring 0 members ∧ ∀ version, version ∈ members ↔ heap.Live version

/-- No builder is at work. -/
def Quiet (heap : VersionHeap α β) : Prop := heap.builders.numbers = ∅

end VersionHeap

end LevelDb
