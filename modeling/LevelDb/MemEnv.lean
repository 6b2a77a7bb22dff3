/-
This file models the in-memory environment (`InMemoryEnv` in `helpers/memenv`): a map from names to
reference-counted files, which the open handles share. A pointer that is NULL or points to a deleted
file is no value to call a method on: such a call has no result here.

What the environment is for is a map from names to files and from files to strings of bytes, in
which nothing is counted and nothing deleted.
-/

import LevelDb.FileState
import LevelDb.Lib.RefCount

namespace LevelDb

open Lib (Heap)

namespace MemEnv

/-- What a `SequentialFileImpl`, a `RandomAccessFileImpl` or a `WritableFileImpl` has. -/
inductive Handle
  | sequential (file pos : Nat)
  | randomAccess (file : Nat)
  | writable (file : Nat)

/-- The file that a handle holds. -/
def Handle.file : Handle → Nat
  | sequential file _ => file
  | randomAccess file => file
  | writable file => file

/-- The calls of the environment and of its handles; `close` deletes a handle. -/
inductive Call
  | newSequentialFile (fname : Bytes)
  | newRandomAccessFile (fname : Bytes)
  | newWritableFile (fname : Bytes)
  | newAppendableFile (fname : Bytes)
  | fileExists (fname : Bytes)
  | getChildren (dir : Bytes)
  | deleteFile (fname : Bytes)
  | getFileSize (fname : Bytes)
  | renameFile (src target : Bytes)
  | append (handle : Nat) (data : Bytes)
  | read (handle n : Nat)
  | skip (handle n : Nat)
  | readAt (handle offset n : Nat)
  | close (handle : Nat)

/-- What a call answers. `fileNotFound` is `IOError(fname, "File not found")`. A call of a handle
that is not open, or not of the right kind, cannot be written and answers `noHandle`. -/
inductive Answer
  | ok
  | fileNotFound (fname : Bytes)
  | ioError (message : String)
  | handle (number : Nat)
  | found (exists' : Bool)
  | children (names : List Bytes)
  | size (bytes : Nat)
  | data (bytes : Bytes)
  | noHandle
  deriving DecidableEq

/-- The name of a file below a directory, as `GetChildren` cuts it out. -/
def childOf (dir filename : Bytes) : Option Bytes :=
  if dir.length + 1 ≤ filename.length ∧ filename[dir.length]? = some 0x2f ∧ dir <+: filename then
    some (filename.drop (dir.length + 1))
  else none

end MemEnv

open MemEnv (Handle Call Answer childOf)

/-! ### The environment -/

/-- `InMemoryEnv`, with its files by their addresses and the handles that are open. -/
structure MemEnv where
  fileMap : Std.TreeMap Bytes (Option Nat)
  heap : Heap FileData
  nextFile : Nat
  handles : Lib.Shelf Handle
  nextHandle : Nat

namespace MemEnv

def new : MemEnv := ⟨∅, ⟨∅, fun _ => ⟨0, FileData.new⟩⟩, 0, ⟨∅, fun _ => .writable 0⟩, 0⟩

variable (env : MemEnv)

/-- The file that a pointer points to. -/
def live (pointer : Option Nat) : Option Nat := pointer.filter (· ∈ env.heap.numbers)

def handleAt (number : Nat) : Option Handle :=
  if number ∈ env.handles.numbers then some (env.handles.file number) else none

/-- The constructor of a handle, which takes a reference. -/
def openHandle (pointer : Option Nat) (handle : Nat → Handle) : Option (MemEnv × Answer) := do
  let file ← env.live pointer
  return ({ env with
    heap := env.heap.ref file
    handles := env.handles.put env.nextHandle (handle file)
    nextHandle := env.nextHandle + 1 }, .handle env.nextHandle)

/-- `new FileState()` and its first reference. -/
def newFileState : Nat × MemEnv :=
  (env.nextFile, { env with
    heap := env.heap.put env.nextFile ⟨1, FileData.new⟩
    nextFile := env.nextFile + 1 })

/-- `DeleteFileInternal`. -/
def deleteFileInternal (fname : Bytes) : Option MemEnv :=
  match env.fileMap[fname]? with
  | none => some env
  | some pointer => do
    let file ← env.live pointer
    return { env with heap := env.heap.release file, fileMap := env.fileMap.erase fname }

/-- `NewWritableFile`. -/
def newWritableFile (fname : Bytes) : Option (MemEnv × Answer) := do
  let env ← env.deleteFileInternal fname
  let (file, env) := env.newFileState
  let env := { env with fileMap := env.fileMap.insert fname (some file) }
  env.openHandle (some file) .writable

/-- `NewAppendableFile`. A new name is mapped to NULL, and a new file is not put in its place. -/
def newAppendableFile (fname : Bytes) : Option (MemEnv × Answer) :=
  let (sptr, env) := match env.fileMap[fname]? with
    | some sptr => (sptr, env)
    | none => (none, { env with fileMap := env.fileMap.insert fname none })
  match sptr with
  | some file => env.openHandle (some file) .writable
  | none =>
    let (file, env) := env.newFileState
    env.openHandle (some file) .writable

/-- `RenameFile`. The name is looked up again after the target was deleted, and a name that is not
there is then mapped to NULL. -/
def renameFile (src target : Bytes) : Option (MemEnv × Answer) :=
  if env.fileMap[src]? = none then some (env, .fileNotFound src)
  else do
    let env ← env.deleteFileInternal target
    let moved := env.fileMap[src]?.getD none
    return ({ env with fileMap := (env.fileMap.insert target moved).erase src }, .ok)

/-- A file that only what it holds changes of. -/
def setFile (file : Nat) (data : FileData) : MemEnv :=
  { env with heap := env.heap.put file ⟨env.heap.refs file, data⟩ }

def setHandle (number : Nat) (handle : Handle) : MemEnv :=
  { env with handles := env.handles.put number handle }

/-- `SequentialFileImpl::Read`. -/
def readSequential (number file pos n : Nat) : Option (MemEnv × Answer) := do
  let file ← env.live (some file)
  match ← (env.heap.value file).read pos n with
  | .error message => return (env, .ioError message)
  | .ok bytes => return (env.setHandle number (.sequential file (pos + bytes.length)), .data bytes)

/-- `SequentialFileImpl::Skip`. -/
def skipSequential (number file pos n : Nat) : Option (MemEnv × Answer) := do
  let file ← env.live (some file)
  let size := (env.heap.value file).size
  if size < pos then return (env, .ioError "pos_ > file_->Size()")
  else return (env.setHandle number (.sequential file (pos + min n (size - pos))), .ok)

/-- A call of the environment. -/
def step : Call → Option (MemEnv × Answer)
  | .newSequentialFile fname =>
    match env.fileMap[fname]? with
    | none => some (env, .fileNotFound fname)
    | some pointer => env.openHandle pointer (.sequential · 0)
  | .newRandomAccessFile fname =>
    match env.fileMap[fname]? with
    | none => some (env, .fileNotFound fname)
    | some pointer => env.openHandle pointer .randomAccess
  | .newWritableFile fname => env.newWritableFile fname
  | .newAppendableFile fname => env.newAppendableFile fname
  | .fileExists fname => some (env, .found env.fileMap[fname]?.isSome)
  | .getChildren dir => some (env, .children (env.fileMap.keys.filterMap (childOf dir)))
  | .deleteFile fname =>
    if env.fileMap[fname]? = none then some (env, .fileNotFound fname)
    else (env.deleteFileInternal fname).map (·, .ok)
  | .getFileSize fname =>
    match env.fileMap[fname]? with
    | none => some (env, .fileNotFound fname)
    | some pointer => (env.live pointer).map fun file => (env, .size (env.heap.value file).size)
  | .renameFile src target => env.renameFile src target
  | .append number data =>
    match env.handleAt number with
    | some (.writable file) => do
      let file ← env.live (some file)
      let appended ← (env.heap.value file).append data
      return (env.setFile file appended, .ok)
    | _ => some (env, .noHandle)
  | .read number n =>
    match env.handleAt number with
    | some (.sequential file pos) => env.readSequential number file pos n
    | _ => some (env, .noHandle)
  | .skip number n =>
    match env.handleAt number with
    | some (.sequential file pos) => env.skipSequential number file pos n
    | _ => some (env, .noHandle)
  | .readAt number offset n =>
    match env.handleAt number with
    | some (.randomAccess file) => do
      let file ← env.live (some file)
      match ← (env.heap.value file).read offset n with
      | .error message => return (env, .ioError message)
      | .ok bytes => return (env, .data bytes)
    | _ => some (env, .noHandle)
  | .close number =>
    match env.handleAt number with
    | some handle => do
      let file ← env.live (some handle.file)
      return ({ env with
        heap := env.heap.release file
        handles := env.handles.remove number }, .ok)
    | none => some (env, .noHandle)

/-- The answers to a list of calls. -/
def answers : MemEnv → List Call → Option (List Answer)
  | _, [] => some []
  | env, call :: rest => do
    let (env', answer) ← env.step call
    return answer :: (← answers env' rest)

end MemEnv

/-! ### The map from names to strings -/

/-- The files of a file system by their names, what they hold, and the handles that are open. -/
structure FileSystem where
  names : Std.TreeMap Bytes Nat
  contents : Nat → Bytes
  nextFile : Nat
  handles : Lib.Shelf Handle
  nextHandle : Nat

namespace FileSystem

def new : FileSystem := ⟨∅, fun _ => [], 0, ⟨∅, fun _ => .writable 0⟩, 0⟩

variable (fs : FileSystem)

def handleAt (number : Nat) : Option Handle :=
  if number ∈ fs.handles.numbers then some (fs.handles.file number) else none

def openHandle (handle : Handle) : FileSystem × Answer :=
  ({ fs with
    handles := fs.handles.put fs.nextHandle handle
    nextHandle := fs.nextHandle + 1 }, .handle fs.nextHandle)

/-- A name for a new, empty file; a file of that name before keeps what it holds. -/
def create (fname : Bytes) : FileSystem :=
  { fs with
    names := fs.names.insert fname fs.nextFile
    contents := Function.update fs.contents fs.nextFile []
    nextFile := fs.nextFile + 1 }

def setHandle (number : Nat) (handle : Handle) : FileSystem :=
  { fs with handles := fs.handles.put number handle }

def appendTo (file : Nat) (data : Bytes) : FileSystem :=
  { fs with contents := Function.update fs.contents file (fs.contents file ++ data) }

/-- What a call does and answers. -/
def step : Call → FileSystem × Answer
  | .newSequentialFile fname =>
    match fs.names[fname]? with
    | none => (fs, .fileNotFound fname)
    | some file => fs.openHandle (.sequential file 0)
  | .newRandomAccessFile fname =>
    match fs.names[fname]? with
    | none => (fs, .fileNotFound fname)
    | some file => fs.openHandle (.randomAccess file)
  | .newWritableFile fname => (fs.create fname).openHandle (.writable fs.nextFile)
  | .newAppendableFile fname =>
    match fs.names[fname]? with
    | none => (fs.create fname).openHandle (.writable fs.nextFile)
    | some file => fs.openHandle (.writable file)
  | .fileExists fname => (fs, .found fs.names[fname]?.isSome)
  | .getChildren dir => (fs, .children (fs.names.keys.filterMap (childOf dir)))
  | .deleteFile fname =>
    match fs.names[fname]? with
    | none => (fs, .fileNotFound fname)
    | some _ => ({ fs with names := fs.names.erase fname }, .ok)
  | .getFileSize fname =>
    match fs.names[fname]? with
    | none => (fs, .fileNotFound fname)
    | some file => (fs, .size (fs.contents file).length)
  | .renameFile src target =>
    match fs.names[src]? with
    | none => (fs, .fileNotFound src)
    | some file => ({ fs with names := (fs.names.erase src).insert target file }, .ok)
  | .append number data =>
    match fs.handleAt number with
    | some (.writable file) => (fs.appendTo file data, .ok)
    | _ => (fs, .noHandle)
  | .read number n =>
    match fs.handleAt number with
    | some (.sequential file pos) =>
      let bytes := ((fs.contents file).drop pos).take n
      (fs.setHandle number (.sequential file (pos + bytes.length)), .data bytes)
    | _ => (fs, .noHandle)
  | .skip number n =>
    match fs.handleAt number with
    | some (.sequential file pos) =>
      let available := (fs.contents file).length - pos
      (fs.setHandle number (.sequential file (pos + min n available)), .ok)
    | _ => (fs, .noHandle)
  | .readAt number offset n =>
    match fs.handleAt number with
    | some (.randomAccess file) =>
      if (fs.contents file).length < offset then
        (fs, .ioError "Offset greater than file size.")
      else (fs, .data (((fs.contents file).drop offset).take n))
    | _ => (fs, .noHandle)
  | .close number =>
    match fs.handleAt number with
    | some _ => ({ fs with handles := fs.handles.remove number }, .ok)
    | none => (fs, .noHandle)

/-- The answers to a list of calls. -/
def answers : FileSystem → List Call → List Answer
  | _, [] => []
  | fs, call :: rest => (fs.step call).2 :: answers (fs.step call).1 rest

/-- The calls that the environment does not serve as the file system does: opening a missing file
for append, and renaming a file to its own name. -/
def Misserved : Call → Prop
  | .newAppendableFile fname => fs.names[fname]? = none
  | .renameFile src target => src = target ∧ fs.names[src]? ≠ none
  | _ => False

instance : (call : Call) → Decidable (fs.Misserved call)
  | .newAppendableFile fname => inferInstanceAs (Decidable (fs.names[fname]? = none))
  | .renameFile src target => inferInstanceAs (Decidable (src = target ∧ fs.names[src]? ≠ none))
  | .newSequentialFile _ | .newRandomAccessFile _ | .newWritableFile _ | .fileExists _
  | .getChildren _ | .deleteFile _ | .getFileSize _ | .append _ _ | .read _ _ | .skip _ _
  | .readAt _ _ _ | .close _ => inferInstanceAs (Decidable False)

/-- No call of a list is misserved in the state it is made in. -/
def AllServed : FileSystem → List Call → Prop
  | _, [] => True
  | fs, call :: rest => ¬ fs.Misserved call ∧ AllServed (fs.step call).1 rest

instance decidableAllServed : (fs : FileSystem) → (calls : List Call) →
    Decidable (fs.AllServed calls)
  | _, [] => inferInstanceAs (Decidable True)
  | fs, call :: rest =>
    have := decidableAllServed (fs.step call).1 rest
    inferInstanceAs (Decidable (¬ fs.Misserved call ∧ AllServed (fs.step call).1 rest))

end FileSystem

/-! ### The environment stands for a file system -/

namespace MemEnv

theorem getElem?_insert {γ : Type} (map : Std.TreeMap Bytes γ) (fname other : Bytes) (value : γ) :
    (map.insert fname value)[other]? = if fname = other then some value else map[other]? := by
  rw [Std.TreeMap.getElem?_insert]
  exact if_congr Std.LawfulEqCmp.compare_eq_iff_eq rfl rfl

theorem getElem?_erase {γ : Type} (map : Std.TreeMap Bytes γ) (fname other : Bytes) :
    (map.erase fname)[other]? = if fname = other then none else map[other]? := by
  rw [Std.TreeMap.getElem?_erase]
  exact if_congr Std.LawfulEqCmp.compare_eq_iff_eq rfl rfl

end MemEnv

open MemEnv (getElem?_insert getElem?_erase)

namespace FileSystem

open Classical in
/-- The references to a file: from its name, and from its handles. -/
noncomputable def references (fs : FileSystem) (file : Nat) : Nat :=
  (if ∃ fname : Bytes, fs.names[fname]? = some file then 1 else 0) +
    fs.handles.total fun handle => if handle.file = file then 1 else 0

/-- Names and handles are those of files that were made, no file has two names, and no handle is
behind the end of its file. -/
structure Inv (fs : FileSystem) : Prop where
  named : ∀ (fname : Bytes) (file : Nat), fs.names[fname]? = some file → file < fs.nextFile
  injective : ∀ (first second : Bytes) (file : Nat), fs.names[first]? = some file →
    fs.names[second]? = some file → first = second
  held : ∀ number ∈ fs.handles.numbers, (fs.handles.file number).file < fs.nextFile
  numbered : ∀ number ∈ fs.handles.numbers, number < fs.nextHandle
  inside : ∀ number ∈ fs.handles.numbers, ∀ file pos,
    fs.handles.file number = .sequential file pos → pos ≤ (fs.contents file).length

variable {fs : FileSystem} (inv : fs.Inv)

theorem handleAt_eq_some {number : Nat} {handle : Handle}
    (isOpen : fs.handleAt number = some handle) :
    number ∈ fs.handles.numbers ∧ fs.handles.file number = handle := by
  rw [handleAt, Option.ite_none_right_eq_some, Option.some.injEq] at isOpen
  exact isOpen

theorem references_openHandle (handle : Handle) (fresh : fs.nextHandle ∉ fs.handles.numbers)
    (other : Nat) :
    (fs.openHandle handle).1.references other =
      fs.references other + if other = handle.file then 1 else 0 := by
  rw [references, references, openHandle, Lib.Shelf.total_put_new fresh, Nat.add_assoc]
  simp only [eq_comm]

theorem references_close {number : Nat} (member : number ∈ fs.handles.numbers) (other : Nat) :
    fs.references other =
      FileSystem.references { fs with handles := fs.handles.remove number } other +
        if other = (fs.handles.file number).file then 1 else 0 := by
  rw [references, references, ← Lib.Shelf.total_remove member, Nat.add_assoc]
  simp only [eq_comm]

/-- A file that moves to a free name keeps its references. -/
theorem references_rename {src target : Bytes} {file : Nat}
    (isNamed : fs.names[src]? = some file) (free : fs.names[target]? = none) :
    FileSystem.references { fs with names := (fs.names.erase src).insert target file } =
      fs.references := by
  classical
  funext other
  have named : (∃ name : Bytes, ((fs.names.erase src).insert target file)[name]? = some other) ↔
      ∃ name : Bytes, fs.names[name]? = some other := by
    constructor
    · rintro ⟨name, isNamed'⟩
      rw [getElem?_insert] at isNamed'
      split at isNamed'
      · exact ⟨src, isNamed.trans isNamed'⟩
      · rw [getElem?_erase, Option.ite_none_left_eq_some] at isNamed'
        exact ⟨name, isNamed'.2⟩
    · rintro ⟨name, isNamed'⟩
      by_cases moved : src = name
      · subst moved
        refine ⟨target, ?_⟩
        rw [getElem?_insert, if_pos rfl, ← isNamed', isNamed]
      · refine ⟨name, ?_⟩
        rw [getElem?_insert, if_neg, getElem?_erase, if_neg moved, isNamed']
        rintro rfl
        rw [free] at isNamed'
        cases isNamed'
  exact congrArg (· + _) (if_congr named rfl rfl)

include inv in
theorem references_erase {fname : Bytes} {file : Nat} (isNamed : fs.names[fname]? = some file)
    (other : Nat) :
    fs.references other = FileSystem.references { fs with names := fs.names.erase fname } other +
      if other = file then 1 else 0 := by
  have erased : ∀ name : Bytes, (fs.names.erase fname)[name]? = some other ↔
      fname ≠ name ∧ fs.names[name]? = some other := by
    intro name
    rw [getElem?_erase]
    split
    · next same => simp [same]
    · next different => simp [different]
  classical
  rw [references, references, Nat.add_right_comm]
  refine congrArg (· + _) ?_
  dsimp only
  simp only [erased]
  by_cases same : other = file
  · subst same
    rw [if_pos ⟨fname, isNamed⟩, if_neg, if_pos rfl]
    rintro ⟨name, different, isNamed'⟩
    exact different (inv.injective _ _ _ isNamed isNamed')
  · rw [if_neg same, Nat.add_zero]
    refine if_congr (exists_congr fun name : Bytes => ?_) rfl rfl
    refine (and_iff_right_of_imp fun isNamed' => ?_).symm
    rintro rfl
    exact same (Option.some.inj (isNamed'.symm.trans isNamed))

/-! ### What the calls keep of the file system -/

theorem inv_new : Inv new where
  named fname file isNamed := by
    rw [new, Std.TreeMap.getElem?_emptyc] at isNamed
    cases isNamed
  injective first second file isNamed := by
    rw [new, Std.TreeMap.getElem?_emptyc] at isNamed
    cases isNamed
  held number member := absurd member (Finset.notMem_empty number)
  numbered number member := absurd member (Finset.notMem_empty number)
  inside number member := absurd member (Finset.notMem_empty number)

include inv

theorem Inv.fresh : fs.nextHandle ∉ fs.handles.numbers := fun member =>
  lt_irrefl _ (inv.numbered _ member)

/-- A handle of a file that was made, not behind the end of the file. -/
theorem Inv.put {number : Nat} {handle : Handle} (made : handle.file < fs.nextFile)
    (inside : ∀ file pos, handle = .sequential file pos → pos ≤ (fs.contents file).length)
    {bound : Nat} (more : fs.nextHandle ≤ bound) (below : number < bound) :
    Inv { fs with handles := fs.handles.put number handle, nextHandle := bound } where
  named := inv.named
  injective := inv.injective
  held := @Lib.Shelf.forall_put _ fs.handles number handle
    (fun _ handle => handle.file < fs.nextFile) made fun other member _ => inv.held other member
  numbered other member := by
    rcases Lib.Shelf.mem_put.mp member with rfl | old
    · exact below
    · exact (inv.numbered other old).trans_le more
  inside := @Lib.Shelf.forall_put _ fs.handles number handle
    (fun _ handle => ∀ file pos, handle = .sequential file pos → pos ≤ (fs.contents file).length)
    inside fun other member _ => inv.inside other member

theorem Inv.openHandle {handle : Handle} (made : handle.file < fs.nextFile)
    (inside : ∀ file pos, handle = .sequential file pos → pos ≤ (fs.contents file).length) :
    (fs.openHandle handle).1.Inv :=
  inv.put made inside (Nat.le_succ _) (Nat.lt_succ_self _)

theorem Inv.removeHandle (number : Nat) :
    Inv { fs with handles := fs.handles.remove number } where
  named := inv.named
  injective := inv.injective
  held other member := inv.held other (Lib.Shelf.mem_remove.mp member).2
  numbered other member := inv.numbered other (Lib.Shelf.mem_remove.mp member).2
  inside other member := inv.inside other (Lib.Shelf.mem_remove.mp member).2

theorem Inv.erase (fname : Bytes) : Inv { fs with names := fs.names.erase fname } where
  named name file isNamed := by
    rw [getElem?_erase, Option.ite_none_left_eq_some] at isNamed
    exact inv.named name file isNamed.2
  injective first second file isFirst isSecond := by
    rw [getElem?_erase, Option.ite_none_left_eq_some] at isFirst isSecond
    exact inv.injective first second file isFirst.2 isSecond.2
  held := inv.held
  numbered := inv.numbered
  inside := inv.inside

/-- A name for a file that has no other. -/
theorem Inv.insert {fname : Bytes} {file : Nat} (made : file < fs.nextFile)
    (unnamed : ∀ name : Bytes, fs.names[name]? ≠ some file) :
    Inv { fs with names := fs.names.insert fname file } where
  named name other isNamed := by
    rw [getElem?_insert] at isNamed
    split at isNamed
    · exact Option.some.inj isNamed ▸ made
    · exact inv.named name other isNamed
  injective first second other isFirst isSecond := by
    rw [getElem?_insert] at isFirst isSecond
    split at isFirst
    · next same =>
      obtain rfl := Option.some.inj isFirst
      split at isSecond
      · next same' => exact same.symm.trans same'
      · exact absurd isSecond (unnamed second)
    · split at isSecond
      · obtain rfl := Option.some.inj isSecond
        exact absurd isFirst (unnamed first)
      · exact inv.injective first second other isFirst isSecond
  held := inv.held
  numbered := inv.numbered
  inside := inv.inside

/-- Contents that only grow. -/
theorem Inv.setContents {contents : Nat → Bytes} {bound : Nat} (more : fs.nextFile ≤ bound)
    (longer : ∀ file < fs.nextFile, (fs.contents file).length ≤ (contents file).length) :
    Inv { fs with contents, nextFile := bound } where
  named name file isNamed := (inv.named name file isNamed).trans_le more
  injective := inv.injective
  held number member := (inv.held number member).trans_le more
  numbered := inv.numbered
  inside number member file pos isSequential := by
    have made := inv.held number member
    rw [isSequential] at made
    exact (inv.inside number member file pos isSequential).trans (longer file made)

theorem Inv.appendTo (file : Nat) (data : Bytes) : (fs.appendTo file data).Inv := by
  refine inv.setContents le_rfl fun other _ => ?_
  by_cases same : other = file
  · subst same
    rw [Function.update_self, List.length_append]
    exact Nat.le_add_right _ _
  · rw [Function.update_of_ne same]

theorem Inv.create (fname : Bytes) : (fs.create fname).Inv := by
  have made : Inv { fs with
      contents := Function.update fs.contents fs.nextFile [], nextFile := fs.nextFile + 1 } := by
    refine inv.setContents (Nat.le_succ _) fun other old => ?_
    rw [Function.update_of_ne old.ne]
  exact made.insert (Nat.lt_succ_self _) fun name isNamed =>
    lt_irrefl _ (inv.named name _ isNamed)

theorem references_create {fname : Bytes} (unnamed : fs.names[fname]? = none) (other : Nat) :
    (fs.create fname).references other =
      fs.references other + if other = fs.nextFile then 1 else 0 := by
  classical
  have inserted : ∀ name : Bytes, (fs.names.insert fname fs.nextFile)[name]? = some other ↔
      fname = name ∧ other = fs.nextFile ∨ fs.names[name]? = some other := by
    intro name
    rw [getElem?_insert]
    split
    · next same =>
      subst same
      rw [unnamed]
      simp [eq_comm]
    · next different => simp [different]
  rw [references, references, create, Nat.add_right_comm]
  refine congrArg (· + _) ?_
  simp only [inserted, exists_or]
  by_cases same : other = fs.nextFile
  · have none' : ¬ ∃ name : Bytes, fs.names[name]? = some other := by
      rintro ⟨name, isNamed⟩
      exact absurd (inv.named name other isNamed) (same ▸ lt_irrefl _)
    simp [same, same ▸ none']
  · simp [same]

theorem references_nextFile : fs.references fs.nextFile = 0 := by
  classical
  have none' : ¬ ∃ name : Bytes, fs.names[name]? = some fs.nextFile := by
    rintro ⟨name, isNamed⟩
    exact lt_irrefl _ (inv.named name _ isNamed)
  rw [references, if_neg none', Nat.zero_add]
  refine Finset.sum_eq_zero fun number member => if_neg ?_
  exact (inv.held number member).ne

end FileSystem

namespace MemEnv

/-- The environment stands for the file system: the same names and handles, every file held in
blocks, counted as it is referenced, and deleted when it no longer is. -/
structure Refines (env : MemEnv) (fs : FileSystem) : Prop where
  inv : fs.Inv
  fileMap : ∀ fname : Bytes, env.fileMap[fname]? = fs.names[fname]?.map some
  handles : env.handles = fs.handles
  nextFile : env.nextFile = fs.nextFile
  nextHandle : env.nextHandle = fs.nextHandle
  allocated : ∀ file ∈ env.heap.numbers, file < fs.nextFile
  balanced : env.heap.Balanced fs.references
  used : env.heap.Used fs.references
  holds : ∀ file ∈ env.heap.numbers, (env.heap.value file).Holds (fs.contents file)

namespace Refines

theorem mem_of_mem_release {heap : Heap FileData} {file : Nat} (member : file ∈ heap.numbers)
    {other : Nat} (stays : other ∈ (heap.release file).numbers) : other ∈ heap.numbers := by
  rw [Lib.Heap.release] at stays
  split at stays
  · exact (Lib.Shelf.mem_put.mp (Lib.Shelf.mem_remove.mp stays).2).elim (· ▸ member) id
  · exact (Lib.Shelf.mem_put.mp stays).elim (· ▸ member) id

variable {env : MemEnv} {fs : FileSystem} (refines : Refines env fs)

theorem live_eq {file : Nat} (member : file ∈ env.heap.numbers) :
    env.live (some file) = some file := by
  rw [live, Option.filter_some, if_pos (by simpa using member)]

include refines

theorem mem_of_named {fname : Bytes} {file : Nat} (isNamed : fs.names[fname]? = some file) :
    file ∈ env.heap.numbers := by
  classical
  refine refines.balanced.mem_of_pos file ?_
  rw [FileSystem.references, if_pos ⟨fname, isNamed⟩]
  exact Nat.add_pos_left Nat.one_pos _

theorem mem_of_held {number : Nat} (member : number ∈ fs.handles.numbers) :
    (fs.handles.file number).file ∈ env.heap.numbers := by
  refine refines.balanced.mem_of_pos _ (Nat.add_pos_right _ ?_)
  have weight := @Lib.Shelf.weight_le_total _
    (fun handle => if handle.file = (fs.handles.file number).file then 1 else 0) _ _ member
  rw [if_pos rfl] at weight
  exact weight

theorem mem_of_open {number : Nat} {handle : Handle} (isOpen : fs.handleAt number = some handle) :
    handle.file ∈ env.heap.numbers := by
  obtain ⟨member, rfl⟩ := FileSystem.handleAt_eq_some isOpen
  exact refines.mem_of_held member

theorem handleAt_eq (number : Nat) : env.handleAt number = fs.handleAt number := by
  rw [handleAt, FileSystem.handleAt, refines.handles]

theorem openHandle {file : Nat} (member : file ∈ env.heap.numbers) {handle : Nat → Handle}
    (isFile : (handle file).file = file)
    (inside : ∀ other pos, handle file = .sequential other pos →
      pos ≤ (fs.contents other).length) :
    ∃ env', env.openHandle (some file) handle =
        some (env', (fs.openHandle (handle file)).2) ∧
      Refines env' (fs.openHandle (handle file)).1 := by
  have taken := fun other => FileSystem.references_openHandle (handle file) refines.inv.fresh other
  rw [isFile] at taken
  refine ⟨{ env with
    heap := env.heap.ref file
    handles := env.handles.put env.nextHandle (handle file)
    nextHandle := env.nextHandle + 1 }, ?_, ?_⟩
  · rw [MemEnv.openHandle, live_eq member, FileSystem.openHandle, ← refines.nextHandle]
    rfl
  · have numbers : (env.heap.ref file).numbers = env.heap.numbers := Finset.insert_eq_of_mem member
    exact
      { inv := refines.inv.openHandle (isFile.trans_lt (refines.allocated file member)) inside
        fileMap := refines.fileMap
        handles := by rw [FileSystem.openHandle, refines.handles, refines.nextHandle]
        nextFile := refines.nextFile
        nextHandle := congrArg (· + 1) refines.nextHandle
        allocated := fun other member => refines.allocated other (numbers ▸ member)
        balanced := refines.balanced.ref member taken
        used := refines.used.put (by rw [taken, if_pos rfl]; exact Nat.succ_pos _)
          fun other different => by rw [taken, if_neg different, Nat.add_zero]
        holds := fun other member => by
          rw [Lib.Heap.ref_value]
          exact refines.holds other (numbers ▸ member) }

/-- Only the lookups of the names matter. -/
theorem congr_names {names : Std.TreeMap Bytes Nat}
    (same : ∀ fname : Bytes, names[fname]? = fs.names[fname]?) :
    Refines env { fs with names } := by
  have references : FileSystem.references { fs with names } = fs.references := by
    funext file
    classical
    have named : (∃ fname : Bytes, names[fname]? = some file) ↔
        ∃ fname : Bytes, fs.names[fname]? = some file :=
      exists_congr fun fname => by rw [same]
    exact congrArg (· + _) (if_congr named rfl rfl)
  exact
    { inv :=
        { named := fun fname file isNamed => refines.inv.named fname file (same fname ▸ isNamed)
          injective := fun first second file isFirst isSecond =>
            refines.inv.injective first second file (same first ▸ isFirst) (same second ▸ isSecond)
          held := refines.inv.held
          numbered := refines.inv.numbered
          inside := refines.inv.inside }
      fileMap := fun fname => by rw [refines.fileMap, same]
      handles := refines.handles
      nextFile := refines.nextFile
      nextHandle := refines.nextHandle
      allocated := refines.allocated
      balanced := references ▸ refines.balanced
      used := references ▸ refines.used
      holds := refines.holds }

/-- `DeleteFileInternal` drops the name, and the file if nothing else refers to it. -/
theorem deleteFileInternal (fname : Bytes) :
    ∃ env', env.deleteFileInternal fname = some env' ∧
      Refines env' { fs with names := fs.names.erase fname } := by
  rw [MemEnv.deleteFileInternal, refines.fileMap]
  cases isNamed : fs.names[fname]? with
  | none =>
    refine ⟨env, rfl, refines.congr_names fun other => ?_⟩
    rw [getElem?_erase, ite_eq_right_iff]
    rintro rfl
    exact isNamed.symm
  | some file =>
    have member := refines.mem_of_named isNamed
    have dropped := FileSystem.references_erase refines.inv isNamed
    refine ⟨{ env with heap := env.heap.release file, fileMap := env.fileMap.erase fname },
      by rw [Option.map_some]; dsimp only; rw [live_eq member]; rfl, ?_⟩
    exact
      { inv := refines.inv.erase fname
        fileMap := fun other => by
          rw [getElem?_erase, getElem?_erase, refines.fileMap]
          split <;> rfl
        handles := refines.handles
        nextFile := refines.nextFile
        nextHandle := refines.nextHandle
        allocated := fun other stays => refines.allocated other (mem_of_mem_release member stays)
        balanced := refines.balanced.release dropped
        used := refines.used.release refines.balanced dropped
        holds := fun other stays => by
          rw [Lib.Heap.release_value]
          exact refines.holds other (mem_of_mem_release member stays) }

/-- A new file under a name that is free. -/
theorem create {fname : Bytes} (unnamed : fs.names[fname]? = none) :
    Refines { env.newFileState.2 with
      fileMap := env.fileMap.insert fname (some env.newFileState.1) } (fs.create fname) := by
  have taken := fun other => FileSystem.references_create refines.inv unnamed other
  have nextFile := refines.nextFile
  exact
    { inv := refines.inv.create fname
      fileMap := fun other => by
        rw [newFileState, FileSystem.create, getElem?_insert, getElem?_insert, refines.fileMap,
          nextFile]
        split <;> rfl
      handles := refines.handles
      nextFile := congrArg (· + 1) nextFile
      nextHandle := refines.nextHandle
      allocated := by
        intro other member
        rcases Lib.Shelf.mem_put.mp member with rfl | old
        · exact nextFile ▸ Nat.lt_succ_self _
        · exact (refines.allocated other old).trans (Nat.lt_succ_self _)
      balanced := by
        refine refines.balanced.put FileData.new ?_ fun other different => ?_
        · rw [taken, nextFile, if_pos rfl, FileSystem.references_nextFile refines.inv]
          rfl
        · rw [taken, if_neg (nextFile ▸ different), Nat.add_zero]
      used := by
        refine refines.used.put ?_ fun other different => ?_
        · rw [taken, nextFile, if_pos rfl]
          exact Nat.succ_pos _
        · rw [taken, if_neg (nextFile ▸ different), Nat.add_zero]
      holds := by
        intro other member
        by_cases same : other = env.nextFile
        · subst same
          have empty : (fs.create fname).contents env.nextFile = [] := by
            rw [nextFile]
            exact Function.update_self _ _ _
          rw [Lib.Heap.value, newFileState, Lib.Shelf.put_file_self, empty]
          exact FileData.holds_new
        · have old : (fs.create fname).contents other = fs.contents other :=
            Function.update_of_ne (nextFile ▸ same) _ _
          rw [Lib.Heap.value, newFileState, Lib.Shelf.put_file_of_ne _ same, old]
          exact refines.holds other ((Lib.Shelf.mem_put.mp member).resolve_left same) }

theorem keys_eq : env.fileMap.keys = fs.names.keys := by
  have member : ∀ fname, fname ∈ env.fileMap.keys ↔ fname ∈ fs.names.keys := by
    intro fname
    rw [Std.TreeMap.mem_keys, Std.TreeMap.mem_keys, Std.TreeMap.mem_iff_isSome_getElem?,
      Std.TreeMap.mem_iff_isSome_getElem?, refines.fileMap, Option.isSome_map]
  have perm := (List.perm_ext_iff_of_nodup Std.TreeMap.nodup_keys Std.TreeMap.nodup_keys).mpr member
  refine List.Perm.eq_of_pairwise (fun first second _ _ less greater => ?_)
    Std.TreeMap.ordered_keys Std.TreeMap.ordered_keys perm
  rw [Std.OrientedCmp.gt_of_lt greater] at less
  cases less

/-- A handle of the same file in place of an open one. -/
theorem setHandle {number : Nat} {handle : Handle} (member : number ∈ fs.handles.numbers)
    (sameFile : handle.file = (fs.handles.file number).file)
    (inside : ∀ file pos, handle = .sequential file pos → pos ≤ (fs.contents file).length) :
    Refines (env.setHandle number handle) (fs.setHandle number handle) := by
  have references : (fs.setHandle number handle).references = fs.references := by
    funext file
    have weights := @Lib.Shelf.total_put _ (fun handle => if handle.file = file then 1 else 0) _ _
      handle member
    rw [sameFile] at weights
    exact congrArg (_ + ·) (Nat.add_right_cancel weights)
  exact
    { inv := refines.inv.put (sameFile.trans_lt (refines.inv.held number member)) inside le_rfl
        (refines.inv.numbered number member)
      fileMap := refines.fileMap
      handles := congrArg (·.put number handle) refines.handles
      nextFile := refines.nextFile
      nextHandle := refines.nextHandle
      allocated := refines.allocated
      balanced := references ▸ refines.balanced
      used := references ▸ refines.used
      holds := refines.holds }

/-- Bytes appended to a file. -/
theorem setFile {file : Nat} (member : file ∈ env.heap.numbers) {appended : FileData}
    {data : Bytes} (holds : appended.Holds (fs.contents file ++ data)) :
    Refines (env.setFile file appended) (fs.appendTo file data) where
  inv := refines.inv.appendTo file data
  fileMap := refines.fileMap
  handles := refines.handles
  nextFile := refines.nextFile
  nextHandle := refines.nextHandle
  allocated other inPut :=
    refines.allocated other ((Lib.Shelf.mem_put.mp inPut).elim (· ▸ member) id)
  balanced := refines.balanced.put appended (refines.balanced.refs_eq file member).symm
    fun _ _ => rfl
  used := refines.used.put (refines.used file member) fun _ _ => rfl
  holds other inPut := by
    by_cases same : other = file
    · subst same
      have longer : (fs.appendTo other data).contents other = fs.contents other ++ data :=
        Function.update_self _ _ _
      rw [Lib.Heap.value, MemEnv.setFile, Lib.Shelf.put_file_self, longer]
      exact holds
    · have old : (fs.appendTo file data).contents other = fs.contents other :=
        Function.update_of_ne same _ _
      rw [Lib.Heap.value, MemEnv.setFile, Lib.Shelf.put_file_of_ne _ same, old]
      exact refines.holds other ((Lib.Shelf.mem_put.mp inPut).resolve_left same)

/-! ### The calls -/

theorem newWritableFile (fname : Bytes) :
    ∃ env', env.newWritableFile fname =
        some (env', ((fs.create fname).openHandle (.writable fs.nextFile)).2) ∧
      Refines env' ((fs.create fname).openHandle (.writable fs.nextFile)).1 := by
  obtain ⟨deleted, isDeleted, refinesDeleted⟩ := refines.deleteFileInternal fname
  have unnamed : (fs.names.erase fname)[fname]? = none := by rw [getElem?_erase, if_pos rfl]
  have created := @congr_names _ _ (refinesDeleted.create unnamed)
    (fs.names.insert fname fs.nextFile) (fun other => by
      rw [FileSystem.create, getElem?_insert, getElem?_insert, getElem?_erase]
      split <;> rfl)
  have same : deleted.newFileState.1 = fs.nextFile := refinesDeleted.nextFile
  have allocated : deleted.newFileState.1 ∈ deleted.newFileState.2.heap.numbers :=
    Lib.Shelf.mem_put.mpr (Or.inl rfl)
  obtain ⟨env', opened, refines'⟩ := @openHandle _ _ created _ allocated .writable rfl
    (fun _ _ isSequential => by cases isSequential)
  refine ⟨env', ?_, same ▸ refines'⟩
  rw [MemEnv.newWritableFile, isDeleted]
  exact opened

theorem newAppendableFile {fname : Bytes} {file : Nat} (isNamed : fs.names[fname]? = some file) :
    ∃ env', env.newAppendableFile fname = some (env', (fs.openHandle (.writable file)).2) ∧
      Refines env' (fs.openHandle (.writable file)).1 := by
  rw [MemEnv.newAppendableFile, refines.fileMap, isNamed]
  exact refines.openHandle (refines.mem_of_named isNamed) rfl
    (fun _ _ isSequential => by cases isSequential)

/-- Renaming to another name. -/
theorem renameFile {src target : Bytes} (different : src ≠ target) {file : Nat}
    (isNamed : fs.names[src]? = some file) :
    ∃ env', env.renameFile src target = some (env', .ok) ∧
      Refines env' { fs with names := (fs.names.erase src).insert target file } := by
  obtain ⟨deleted, isDeleted, refinesDeleted⟩ := refines.deleteFileInternal target
  have stays : deleted.fileMap[src]? = some (some file) := by
    rw [refinesDeleted.fileMap, getElem?_erase, if_neg (Ne.symm different), isNamed,
      Option.map_some]
  refine ⟨{ deleted with fileMap := (deleted.fileMap.insert target (some file)).erase src },
    ?_, ?_⟩
  · rw [MemEnv.renameFile, refines.fileMap, isNamed, if_neg (by simp), isDeleted]
    simp only [Option.bind_eq_bind, Option.bind_some, stays, Option.getD_some]
    rfl
  · have isNamed' : (fs.names.erase target)[src]? = some file := by
      rw [getElem?_erase, if_neg (Ne.symm different), isNamed]
    have free : (fs.names.erase target)[target]? = none := by rw [getElem?_erase, if_pos rfl]
    have references := @FileSystem.references_rename { fs with names := fs.names.erase target } _ _
      file isNamed' free
    have moved : Refines
        { deleted with fileMap := (deleted.fileMap.insert target (some file)).erase src }
        { fs with names := ((fs.names.erase target).erase src).insert target file } :=
      { inv := by
          refine (refinesDeleted.inv.erase src).insert (refines.inv.named src file isNamed)
            fun name again => ?_
          rw [getElem?_erase, Option.ite_none_left_eq_some] at again
          exact again.1 (refinesDeleted.inv.injective src name file isNamed' again.2)
        fileMap := fun other => by
          rw [getElem?_erase, getElem?_insert, getElem?_insert, getElem?_erase,
            refinesDeleted.fileMap]
          by_cases isSrc : src = other
          · rw [if_pos isSrc, if_pos isSrc, if_neg (isSrc ▸ Ne.symm different), Option.map_none]
          · rw [if_neg isSrc, if_neg isSrc]
            split <;> rfl
        handles := refinesDeleted.handles
        nextFile := refinesDeleted.nextFile
        nextHandle := refinesDeleted.nextHandle
        allocated := refinesDeleted.allocated
        balanced := references ▸ refinesDeleted.balanced
        used := references ▸ refinesDeleted.used
        holds := refinesDeleted.holds }
    refine moved.congr_names fun other => ?_
    rw [getElem?_insert, getElem?_insert]
    by_cases isTarget : target = other
    · rw [if_pos isTarget, if_pos isTarget]
    · rw [if_neg isTarget, if_neg isTarget, getElem?_erase, getElem?_erase, getElem?_erase,
        if_neg isTarget]

theorem opened {fname : Bytes} {handle : Nat → Handle}
    (isFile : ∀ file, (handle file).file = file)
    (inside : ∀ file other pos, handle file = .sequential other pos → pos = 0) :
    ∃ env', (match env.fileMap[fname]? with
        | none => some (env, Answer.fileNotFound fname)
        | some pointer => env.openHandle pointer handle) =
      some (env', (match fs.names[fname]? with
        | none => (fs, Answer.fileNotFound fname)
        | some file => fs.openHandle (handle file)).2) ∧
      Refines env' (match fs.names[fname]? with
        | none => (fs, Answer.fileNotFound fname)
        | some file => fs.openHandle (handle file)).1 := by
  rw [refines.fileMap]
  cases isNamed : fs.names[fname]? with
  | none => exact ⟨env, rfl, refines⟩
  | some file =>
    refine refines.openHandle (refines.mem_of_named isNamed) (isFile file) fun other pos same => ?_
    rw [inside file other pos same]
    exact Nat.zero_le _

theorem readSequential {number file pos : Nat}
    (isOpen : fs.handleAt number = some (.sequential file pos)) (n : Nat) :
    ∃ env', env.readSequential number file pos n =
        some (env', .data (((fs.contents file).drop pos).take n)) ∧
      Refines env' (fs.setHandle number
        (.sequential file (pos + (((fs.contents file).drop pos).take n).length))) := by
  obtain ⟨member, isHandle⟩ := FileSystem.handleAt_eq_some isOpen
  have allocated : file ∈ env.heap.numbers := refines.mem_of_open isOpen
  have inside := refines.inv.inside number member file pos isHandle
  refine ⟨env.setHandle number (.sequential file
    (pos + (((fs.contents file).drop pos).take n).length)), ?_, refines.setHandle member ?_ ?_⟩
  · rw [MemEnv.readSequential, live_eq allocated]
    simp only [Option.bind_eq_bind, Option.bind_some]
    rw [FileData.read_eq (refines.holds file allocated), if_neg (not_lt.mpr inside)]
    rfl
  · rw [isHandle]
    rfl
  · rintro other pos' same
    cases same
    rw [List.length_take, List.length_drop]
    omega

theorem skipSequential {number file pos : Nat}
    (isOpen : fs.handleAt number = some (.sequential file pos)) (n : Nat) :
    ∃ env', env.skipSequential number file pos n = some (env', .ok) ∧
      Refines env' (fs.setHandle number
        (.sequential file (pos + min n ((fs.contents file).length - pos)))) := by
  obtain ⟨member, isHandle⟩ := FileSystem.handleAt_eq_some isOpen
  have allocated : file ∈ env.heap.numbers := refines.mem_of_open isOpen
  have inside := refines.inv.inside number member file pos isHandle
  have size := (refines.holds file allocated).size_eq
  refine ⟨env.setHandle number (.sequential file
    (pos + min n ((fs.contents file).length - pos))), ?_, refines.setHandle member ?_ ?_⟩
  · rw [MemEnv.skipSequential, live_eq allocated]
    simp only [Option.bind_eq_bind, Option.bind_some]
    rw [size, if_neg (not_lt.mpr inside)]
    rfl
  · rw [isHandle]
    rfl
  · rintro other pos' same
    cases same
    omega

theorem close {number : Nat} {handle : Handle} (isOpen : fs.handleAt number = some handle) :
    ∃ env', env.step (.close number) = some (env', .ok) ∧
      Refines env' { fs with handles := fs.handles.remove number } := by
  obtain ⟨member, isHandle⟩ := FileSystem.handleAt_eq_some isOpen
  have allocated := refines.mem_of_open isOpen
  have dropped := FileSystem.references_close member
  rw [isHandle] at dropped
  refine ⟨{ env with
    heap := env.heap.release handle.file
    handles := env.handles.remove number }, ?_, ?_⟩
  · rw [MemEnv.step, refines.handleAt_eq, isOpen]
    simp only [live_eq allocated]
    rfl
  · exact
      { inv := refines.inv.removeHandle number
        fileMap := refines.fileMap
        handles := congrArg (·.remove number) refines.handles
        nextFile := refines.nextFile
        nextHandle := refines.nextHandle
        allocated := fun other stays =>
          refines.allocated other (mem_of_mem_release allocated stays)
        balanced := refines.balanced.release dropped
        used := refines.used.release refines.balanced dropped
        holds := fun other stays => by
          rw [Lib.Heap.release_value]
          exact refines.holds other (mem_of_mem_release allocated stays) }

/-- A call that is served answers as in the file system, and the environment goes on standing for
it. -/
theorem step {call : Call} (served : ¬ fs.Misserved call) :
    ∃ env', env.step call = some (env', (fs.step call).2) ∧ Refines env' (fs.step call).1 := by
  cases call with
  | newSequentialFile fname =>
    exact refines.opened (fun _ => rfl) fun file other pos same => by cases same; rfl
  | newRandomAccessFile fname =>
    exact refines.opened (fun _ => rfl) fun file other pos same => by cases same
  | newWritableFile fname => exact refines.newWritableFile fname
  | newAppendableFile fname =>
    rw [FileSystem.step]
    cases isNamed : fs.names[fname]? with
    | none => exact absurd isNamed served
    | some file => exact refines.newAppendableFile isNamed
  | fileExists fname =>
    refine ⟨env, ?_, refines⟩
    rw [MemEnv.step, refines.fileMap, Option.isSome_map]
    rfl
  | getChildren dir =>
    refine ⟨env, ?_, refines⟩
    rw [MemEnv.step, refines.keys_eq]
    rfl
  | deleteFile fname =>
    rw [MemEnv.step, FileSystem.step, refines.fileMap]
    cases isNamed : fs.names[fname]? with
    | none => exact ⟨env, rfl, refines⟩
    | some file =>
      obtain ⟨deleted, isDeleted, refinesDeleted⟩ := refines.deleteFileInternal fname
      refine ⟨deleted, ?_, refinesDeleted⟩
      rw [if_neg (by simp), isDeleted]
      rfl
  | getFileSize fname =>
    rw [MemEnv.step, FileSystem.step, refines.fileMap]
    cases isNamed : fs.names[fname]? with
    | none => exact ⟨env, rfl, refines⟩
    | some file =>
      have allocated := refines.mem_of_named isNamed
      refine ⟨env, ?_, refines⟩
      simp only [Option.map_some, live_eq allocated, (refines.holds file allocated).size_eq]
  | renameFile src target =>
    rw [FileSystem.step]
    cases isNamed : fs.names[src]? with
    | none =>
      refine ⟨env, ?_, refines⟩
      rw [MemEnv.step, MemEnv.renameFile, refines.fileMap, isNamed, Option.map_none, if_pos rfl]
    | some file =>
      have different : src ≠ target := fun same => served ⟨same, by rw [isNamed]; simp⟩
      exact refines.renameFile different isNamed
  | append number data =>
    rw [MemEnv.step, FileSystem.step, refines.handleAt_eq]
    cases isOpen : fs.handleAt number with
    | none => exact ⟨env, rfl, refines⟩
    | some handle =>
      cases handle with
      | sequential file pos => exact ⟨env, rfl, refines⟩
      | randomAccess file => exact ⟨env, rfl, refines⟩
      | writable file =>
        have allocated : file ∈ env.heap.numbers := refines.mem_of_open isOpen
        obtain ⟨appended, isAppended, holds⟩ :=
          FileData.append_holds (refines.holds file allocated) data
        refine ⟨env.setFile file appended, ?_, refines.setFile allocated holds⟩
        simp only [live_eq allocated, Option.bind_eq_bind, Option.bind_some, isAppended]
        rfl
  | read number n =>
    rw [MemEnv.step, FileSystem.step, refines.handleAt_eq]
    cases isOpen : fs.handleAt number with
    | none => exact ⟨env, rfl, refines⟩
    | some handle =>
      cases handle with
      | sequential file pos => exact refines.readSequential isOpen n
      | randomAccess file => exact ⟨env, rfl, refines⟩
      | writable file => exact ⟨env, rfl, refines⟩
  | skip number n =>
    rw [MemEnv.step, FileSystem.step, refines.handleAt_eq]
    cases isOpen : fs.handleAt number with
    | none => exact ⟨env, rfl, refines⟩
    | some handle =>
      cases handle with
      | sequential file pos => exact refines.skipSequential isOpen n
      | randomAccess file => exact ⟨env, rfl, refines⟩
      | writable file => exact ⟨env, rfl, refines⟩
  | readAt number offset n =>
    rw [MemEnv.step, FileSystem.step, refines.handleAt_eq]
    cases isOpen : fs.handleAt number with
    | none => exact ⟨env, rfl, refines⟩
    | some handle =>
      cases handle with
      | sequential file pos => exact ⟨env, rfl, refines⟩
      | writable file => exact ⟨env, rfl, refines⟩
      | randomAccess file =>
        have allocated : file ∈ env.heap.numbers := refines.mem_of_open isOpen
        simp only [live_eq allocated, Option.bind_eq_bind, Option.bind_some,
          FileData.read_eq (refines.holds file allocated)]
        by_cases behind : (fs.contents file).length < offset
        · rw [if_pos behind, if_pos behind]
          exact ⟨env, rfl, refines⟩
        · rw [if_neg behind, if_neg behind]
          exact ⟨env, rfl, refines⟩
  | close number =>
    rw [FileSystem.step]
    cases isOpen : fs.handleAt number with
    | none =>
      refine ⟨env, ?_, refines⟩
      rw [MemEnv.step, refines.handleAt_eq, isOpen]
    | some handle => exact refines.close isOpen

end Refines

theorem refines_new : Refines new FileSystem.new where
  inv := FileSystem.inv_new
  fileMap fname := by
    rw [new, FileSystem.new, Std.TreeMap.getElem?_emptyc, Std.TreeMap.getElem?_emptyc]
    rfl
  handles := rfl
  nextFile := rfl
  nextHandle := rfl
  allocated file member := absurd member (Finset.notMem_empty file)
  balanced := by
    classical
    have none' : ∀ file, FileSystem.new.references file = 0 := by
      intro file
      rw [FileSystem.references, if_neg]
      · rfl
      · rintro ⟨fname, isNamed⟩
        rw [FileSystem.new, Std.TreeMap.getElem?_emptyc] at isNamed
        cases isNamed
    refine ⟨fun file member => absurd member (Finset.notMem_empty file), fun file positive => ?_⟩
    rw [none'] at positive
    cases positive
  used file member := absurd member (Finset.notMem_empty file)
  holds file member := absurd member (Finset.notMem_empty file)

theorem answers_of_refines {env : MemEnv} {fs : FileSystem} (refines : Refines env fs)
    {calls : List Call} (served : fs.AllServed calls) :
    env.answers calls = some (fs.answers calls) := by
  induction calls generalizing env fs with
  | nil => rfl
  | cons call rest inductionHypothesis =>
    obtain ⟨env', taken, refines'⟩ := refines.step served.1
    rw [answers, taken]
    simp only [Option.bind_eq_bind, Option.bind_some, inductionHypothesis refines' served.2]
    rfl

/-- In every run without a misserved call the in-memory environment answers as the map from names
to strings does. -/
theorem answers_eq {calls : List Call} (served : FileSystem.new.AllServed calls) :
    new.answers calls = some (FileSystem.new.answers calls) :=
  answers_of_refines refines_new served

theorem answers_eq_served :
    let f := [0x2f, 0x66]
    let g := [0x2f, 0x67]
    let calls := [.newWritableFile f, .append 0 [0x61, 0x62], .newSequentialFile f, .read 1 1,
      .deleteFile f, .read 1 5, .newWritableFile g, .newAppendableFile g, .renameFile g f,
      .getChildren []]
    new.answers calls = some (FileSystem.new.answers calls) :=
  answers_eq (by decide +kernel)

/-- A file that is renamed to its own name is gone, and one that was opened for append cannot be
opened again: the call would be one of a NULL pointer. -/
theorem answers_ne_misserved :
    let f := [0x2f, 0x66]
    let renamed := [.newWritableFile f, .renameFile f f, .fileExists f]
    let appended := [.newAppendableFile f, .append 0 [0x61], .newSequentialFile f]
    (new.answers renamed = some [.handle 0, .ok, .found false] ∧
      FileSystem.new.answers renamed = [.handle 0, .ok, .found true]) ∧
    (new.answers appended = none ∧
      FileSystem.new.answers appended = [.handle 0, .ok, .handle 1]) := by
  decide +kernel

end MemEnv

end LevelDb
