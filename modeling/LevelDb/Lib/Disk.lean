/-
This file develops files that survive crashes. A disk maps names to files; of every file it is known
how much of it was synced last. A crash keeps of each file some prefix that holds at least what was
synced. Operations run one after another, and a crash may come behind any number of them.
-/

import Mathlib.Tactic

namespace LevelDb.Lib

variable {Name α : Type}

/-! ### Disks -/

/-- The contents of a file, and how much of them was synced. -/
structure DiskFile (α : Type) where
  contents : List α := []
  synced : Nat := 0

abbrev Disk (Name α : Type) : Type := Name → Option (DiskFile α)

/-! ### Crashes -/

/-- The contents of the files as long as there is no crash. -/
def Disk.contents (disk : Disk Name α) (name : Name) : Option (List α) :=
  (disk name).map DiskFile.contents

/-- What a crash may leave of a disk. -/
structure Disk.Survives (disk : Disk Name α) (after : Name → Option (List α)) : Prop where
  absent : ∀ name, disk name = none → after name = none
  kept : ∀ name file, disk name = some file →
    ∃ kept, file.synced ≤ kept ∧ after name = some (file.contents.take kept)

variable {disk : Disk Name α} {name : Name}

/-- A crash that keeps so many bytes of each file, and what was synced. -/
def Disk.cut (disk : Disk Name α) (kept : Name → Nat) (name : Name) : Option (List α) :=
  (disk name).map fun file => file.contents.take (max file.synced (kept name))

theorem Disk.survives_cut (disk : Disk Name α) (kept : Name → Nat) :
    disk.Survives (disk.cut kept) := by
  refine ⟨fun name none' => ?_, fun name file isFile =>
    ⟨max file.synced (kept name), le_max_left _ _, ?_⟩⟩
  · rw [Disk.cut, none']
    rfl
  · rw [Disk.cut, isFile]
    rfl

/-- A file that was synced as a whole survives as a whole. -/
theorem Disk.Survives.of_synced {after : Name → Option (List α)} (survives : disk.Survives after)
    {contents : List α} (isFile : disk name = some ⟨contents, contents.length⟩) :
    after name = some contents := by
  obtain ⟨kept, enough, isAfter⟩ := survives.kept name _ isFile
  rw [isAfter, List.take_of_length_le enough]

/-! ### Operations -/

inductive DiskOp (Name α : Type)
  | create (name : Name)
  | append (name : Name) (data : List α)
  | sync (name : Name)
  | rename (source target : Name)
  | delete (name : Name)

/-- The names of which an operation may change the file. -/
def DiskOp.names : DiskOp Name α → List Name
  | .create name | .append name _ | .sync name | .delete name => [name]
  | .rename source target => [source, target]

variable [DecidableEq Name]

/-- An operation. A file that is created anew loses its contents, and one that is renamed replaces
the file of that name. -/
def Disk.step (disk : Disk Name α) : DiskOp Name α → Disk Name α
  | .create name => Function.update disk name (some {})
  | .append name data => Function.update disk name
      ((disk name).map fun file => { file with contents := file.contents ++ data })
  | .sync name => Function.update disk name
      ((disk name).map fun file => { file with synced := file.contents.length })
  | .rename source target =>
    match disk source with
    | none => disk
    | some file => Function.update (Function.update disk source none) target (some file)
  | .delete name => Function.update disk name none

def Disk.run (disk : Disk Name α) (ops : List (DiskOp Name α)) : Disk Name α :=
  ops.foldl Disk.step disk

theorem Disk.step_of_not_mem {op : DiskOp Name α} (other : name ∉ op.names) :
    disk.step op name = disk name := by
  cases op with
  | create | append | sync | delete =>
    exact Function.update_of_ne (List.ne_of_not_mem_cons other) _ _
  | rename source target =>
    rw [DiskOp.names, List.mem_cons, List.mem_singleton, not_or] at other
    cases isSource : disk source with
    | none => simp only [Disk.step, isSource]
    | some file =>
      simp only [Disk.step, isSource]
      rw [Function.update_of_ne other.2, Function.update_of_ne other.1]

theorem Disk.run_append (disk : Disk Name α) (first second : List (DiskOp Name α)) :
    disk.run (first ++ second) = (disk.run first).run second :=
  List.foldl_append

/-- A property that every operation keeps holds behind any number of them. -/
theorem Disk.run_invariant {inv : Disk Name α → Prop} {ops : List (DiskOp Name α)}
    (initially : inv disk) (kept : ∀ op ∈ ops, ∀ disk, inv disk → inv (disk.step op))
    (count : Nat) : inv (disk.run (ops.take count)) := by
  induction ops generalizing disk count with
  | nil =>
    rw [List.take_nil]
    exact initially
  | cons op rest inductionHypothesis =>
    cases count with
    | zero => exact initially
    | succ count =>
      exact inductionHypothesis (kept op List.mem_cons_self disk initially)
        (fun op member => kept op (List.mem_cons_of_mem _ member)) count

/-- A crash behind some operations of two lists comes among the first ones or behind them. -/
theorem Disk.run_take_append (disk : Disk Name α) (first second : List (DiskOp Name α))
    (count : Nat) :
    (∃ count', disk.run ((first ++ second).take count) = disk.run (first.take count')) ∨
      ∃ count', disk.run ((first ++ second).take count) =
        (disk.run first).run (second.take count') := by
  rw [List.take_append]
  rcases Nat.le_total count first.length with inFirst | behind
  · refine .inl ⟨count, ?_⟩
    rw [Nat.sub_eq_zero_of_le inFirst, List.take_zero, List.append_nil]
  · refine .inr ⟨count - first.length, ?_⟩
    rw [List.take_of_length_le behind, Disk.run_append]

end LevelDb.Lib
