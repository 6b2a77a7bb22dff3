/-
This file models `DestroyDB` (`db/db_impl`) on a directory that may hold other files and directories.
It deletes the files whose names it knows, and then the directory, for which it relies on the Env to
refuse if something is left. `DeleteDir` of `WinEnv` does not refuse: it deletes the directory with
everything in it.
-/

import LevelDb.FileName

namespace LevelDb

/-! ### Directories -/

/-- What is in a directory under a name. -/
inductive Node
  | file (contents : Bytes)
  | folder (children : List (Bytes × Node))

/-- The names in a directory, with what is there. -/
abbrev Children := List (Bytes × Node)

/-- Whether there is a file. -/
def Node.isFile : Node → Bool
  | .file _ => true
  | .folder _ => false

namespace DestroyDb

/-- `GetChildren`: `FindFirstFileA` lists the directory itself and the one above as well. Without a
directory it fails, and the list stays empty. -/
def getChildren : Option Children → List Bytes
  | none => []
  | some children => ascii ['.'] :: ascii ['.', '.'] :: children.map Prod.fst

/-- `LockFile` creates the file if there is none, and is always OK. -/
def lockFile (children : Children) : Children :=
  if lockFileName ∈ children.map Prod.fst then children else children ++ [(lockFileName, .file [])]

/-- `DeleteFile`: whether it succeeds, and the directory. It deletes no directory, and `deletable`
says which files it can delete. -/
def deleteFile (deletable : Bytes → Bool) (name : Bytes) (children : Children) : Bool × Children :=
  if children.any (fun child => child.1 = name ∧ child.2.isFile) && deletable name then
    (true, children.filter fun child => ¬ (child.1 = name ∧ child.2.isFile))
  else (false, children)

/-- One round of the loop over the names: the result is OK until a deletion fails. -/
def visit (deletable : Bytes → Bool) (state : Bool × Children) (name : Bytes) : Bool × Children :=
  match parseFileName name with
  | none => state
  | some (_, .kDBLockFile) => state
  | some _ =>
    let deleted := deleteFile deletable name state.2
    (state.1 && deleted.1, deleted.2)

/-- `DestroyDB`, for an Env with some `DeleteDir`: whether it returns OK, and what is left of the
directory. -/
def destroyDb (deleteDir : Children → Option Children) (deletable : Bytes → Bool)
    (directory : Option Children) : Bool × Option Children :=
  match directory with
  | none => (true, none)
  | some children =>
    let visited := (getChildren directory).foldl (visit deletable) (true, lockFile children)
    (visited.1, deleteDir (deleteFile deletable lockFileName visited.2).2)

/-- `DeleteDir` of `WinEnv`: `SHFileOperationA` with `FO_DELETE`. -/
def winDeleteDir (_ : Children) : Option Children := none

/-- A `DeleteDir` that refuses to delete a directory with something in it. -/
def rmdir (children : Children) : Option Children := if children.isEmpty then none else some children

/-! ### What is left -/

/-- A file that belongs to the database by its name. -/
def Owned (child : Bytes × Node) : Prop :=
  child.2.isFile = true ∧ (parseFileName child.1).isSome = true

instance (child : Bytes × Node) : Decidable (Owned child) := inferInstanceAs (Decidable (_ ∧ _))

/-- Everything that does not belong to the database is still there afterwards. -/
def Spares (before after : Option Children) : Prop :=
  ∀ child ∈ before.getD [], child ∈ after.getD [] ∨ Owned child

theorem parseFileName_lockFileName : parseFileName lockFileName = some (0, .kDBLockFile) := by
  decide

/-- Deleting a file of the database leaves everything else. -/
theorem mem_deleteFile {deletable : Bytes → Bool} {name : Bytes}
    (isName : (parseFileName name).isSome = true) {children : Children} {child : Bytes × Node}
    (member : child ∈ children) (foreign : ¬ Owned child) :
    child ∈ (deleteFile deletable name children).2 := by
  rw [deleteFile]
  split
  · refine List.mem_filter.mpr ⟨member, decide_eq_true fun same => foreign ⟨same.2, ?_⟩⟩
    rw [same.1]
    exact isName
  · exact member

theorem mem_visit {deletable : Bytes → Bool} {state : Bool × Children} (name : Bytes)
    {child : Bytes × Node} (member : child ∈ state.2) (foreign : ¬ Owned child) :
    child ∈ (visit deletable state name).2 := by
  rw [visit]
  split
  · exact member
  · exact member
  · next isParsed => exact mem_deleteFile (by rw [isParsed]; rfl) member foreign

theorem mem_foldl_visit {deletable : Bytes → Bool} {state : Bool × Children} (names : List Bytes)
    {child : Bytes × Node} (member : child ∈ state.2) (foreign : ¬ Owned child) :
    child ∈ (names.foldl (visit deletable) state).2 := by
  induction names generalizing state with
  | nil => exact member
  | cons name rest inductionHypothesis => exact inductionHypothesis (mem_visit name member foreign)

/-- Before `DeleteDir` everything that does not belong to the database is there, so a `DeleteDir`
that refuses spares it. -/
theorem destroyDb_rmdir_spares (deletable : Bytes → Bool) (directory : Option Children) :
    Spares directory (destroyDb rmdir deletable directory).2 := by
  intro child member
  by_cases foreign : Owned child
  · exact .inr foreign
  · refine .inl ?_
    cases directory with
    | none => exact absurd member List.not_mem_nil
    | some children =>
      have locked : child ∈ lockFile children := by
        rw [lockFile]
        split
        · exact member
        · exact List.mem_append_left _ member
      have left := @mem_deleteFile deletable lockFileName (by rw [parseFileName_lockFileName]; rfl) _
        _ (@mem_foldl_visit deletable (true, _) (getChildren (some children)) _ locked foreign) foreign
      rw [destroyDb, rmdir]
      dsimp only
      rw [if_neg (by
        rw [List.isEmpty_iff]
        exact List.ne_nil_of_mem left)]
      exact left

/-- `DeleteDir` of `WinEnv` leaves nothing. -/
theorem destroyDb_gone (deletable : Bytes → Bool) (directory : Option Children) :
    (destroyDb winDeleteDir deletable directory).2 = none := by
  cases directory with
  | none => rfl
  | some children => rfl

/-- With `WinEnv`, `DestroyDB` spares what does not belong to the database exactly if there is
nothing but files of the database. -/
theorem destroyDb_spares_iff (deletable : Bytes → Bool) (directory : Option Children) :
    Spares directory (destroyDb winDeleteDir deletable directory).2 ↔
      ∀ child ∈ directory.getD [], Owned child := by
  refine ⟨fun spares child member => ?_, fun owned child member => .inr (owned child member)⟩
  refine (spares child member).resolve_left fun left => ?_
  rw [destroyDb_gone] at left
  exact List.not_mem_nil left

/-- A directory with `CURRENT` and a directory `lost`. -/
def withLost : Children :=
  [(currentFileName, .file [1]), (ascii ['l', 'o', 's', 't'], .folder [([48], .file [2])])]

theorem destroyDb_deletes_lost :
    (destroyDb winDeleteDir (fun _ => true) (some withLost)).1 = true ∧
      ¬ Spares (some withLost) (destroyDb winDeleteDir (fun _ => true) (some withLost)).2 := by
  refine ⟨by decide +kernel, fun spares => ?_⟩
  obtain left | owned := spares (ascii ['l', 'o', 's', 't'], .folder [([48], .file [2])])
    (List.mem_cons_of_mem _ List.mem_cons_self)
  · rw [destroyDb_gone] at left
    exact List.not_mem_nil left
  · exact absurd owned.1 (by decide)

end DestroyDb

end LevelDb
