/-
This file models how `DBImpl::Recover` walks over the names in the directory: it removes the number
of every file from the set of tables that the version lists, and collects the logs to replay. A
number is removed for a file of any type, so a table is only missed when no other file has its
number.
-/

import LevelDb.FileName
import Mathlib.Data.Finset.Max

namespace LevelDb

/-! ### The walk -/

/-- The variables of the walk: the numbers that were not seen yet, and the logs. -/
structure Listing where
  expected : Finset Nat
  logs : List Nat
  deriving DecidableEq

/-- One round of the loop over the names. -/
def Listing.visit (minLog prevLog : Nat) (listing : Listing) (name : Bytes) : Listing :=
  match parseFileName name with
  | none => listing
  | some (number, type) =>
    { expected := listing.expected.erase number
      logs :=
        if type = .kLogFile ∧ (number ≥ minLog ∨ number = prevLog) then listing.logs ++ [number]
        else listing.logs }

/-- The `Corruption` of `Recover`: its message, and the name of the first table that is missing. -/
structure MissingFiles where
  message : String
  name : Bytes
  deriving DecidableEq, Repr

/-- The part of `Recover` from `AddLiveFiles` to the check of the expected files: the logs, or the
`Corruption` that is returned. -/
def recoverListing (minLog prevLog : Nat) (expected : Finset Nat) (filenames : List Bytes) :
    Except MissingFiles (List Nat) :=
  let listing := filenames.foldl (Listing.visit minLog prevLog) ⟨expected, []⟩
  if missing : listing.expected.Nonempty then
    .error
      { message := toString (Int.bmod listing.expected.card (2 ^ 32)) ++ " missing files; e.g."
        name := tableFileName (listing.expected.min' missing) }
  else .ok listing.logs

/-! ### What is missed -/

/-- The directory has neither name of a table. -/
def TableMissing (filenames : List Bytes) (number : Nat) : Prop :=
  tableFileName number ∉ filenames ∧ sstTableFileName number ∉ filenames

/-- No file in the directory has a number, whatever its type is. -/
def NumberUnused (filenames : List Bytes) (number : Nat) : Prop :=
  ∀ name ∈ filenames, ∀ type, parseFileName name ≠ some (number, type)

theorem mem_visit_iff (minLog prevLog : Nat) (listing : Listing) (name : Bytes) (number : Nat) :
    number ∈ (listing.visit minLog prevLog name).expected ↔
      number ∈ listing.expected ∧ ∀ type, parseFileName name ≠ some (number, type) := by
  rw [Listing.visit]
  cases isParsed : parseFileName name with
  | none => exact (and_iff_left nofun).symm
  | some parsed =>
    obtain ⟨other, type⟩ := parsed
    dsimp only
    rw [Finset.mem_erase, and_comm]
    refine and_congr_right fun _ => ⟨fun differs _ same => ?_, fun unused same => ?_⟩
    · exact differs (Prod.mk.inj (Option.some.inj same)).1.symm
    · exact unused type (by rw [same])

/-- What is left are the numbers that no file has. -/
theorem mem_foldl_visit_iff (minLog prevLog : Nat) (filenames : List Bytes) (listing : Listing)
    (number : Nat) :
    number ∈ (filenames.foldl (Listing.visit minLog prevLog) listing).expected ↔
      number ∈ listing.expected ∧ NumberUnused filenames number := by
  induction filenames generalizing listing with
  | nil => exact (and_iff_left nofun).symm
  | cons name rest inductionHypothesis =>
    rw [List.foldl_cons, inductionHypothesis, mem_visit_iff, NumberUnused, NumberUnused,
      List.forall_mem_cons, and_assoc]

/-- `Recover` returns the `Corruption` exactly when some table that the version lists has a number
that no file has. -/
theorem recoverListing_fails_iff (minLog prevLog : Nat) (expected : Finset Nat)
    (filenames : List Bytes) :
    (∃ corruption, recoverListing minLog prevLog expected filenames = .error corruption) ↔
      ∃ number ∈ expected, NumberUnused filenames number := by
  have left : (filenames.foldl (Listing.visit minLog prevLog) ⟨expected, []⟩).expected.Nonempty ↔
      ∃ number ∈ expected, NumberUnused filenames number :=
    exists_congr fun number => mem_foldl_visit_iff minLog prevLog filenames ⟨expected, []⟩ number
  rw [← left, recoverListing]
  split
  · next missing => exact iff_of_true ⟨_, rfl⟩ missing
  · next none' =>
    refine iff_of_false ?_ none'
    rintro ⟨corruption, impossible⟩
    cases impossible

/-- A missing table makes `Recover` fail exactly if no table is missing or the number of some listed
table is that of no file at all. -/
theorem missing_table_detected_iff (minLog prevLog : Nat) (expected : Finset Nat)
    (filenames : List Bytes) :
    ((∃ number ∈ expected, TableMissing filenames number) →
        ∃ corruption, recoverListing minLog prevLog expected filenames = .error corruption) ↔
      (∀ number ∈ expected, ¬ TableMissing filenames number) ∨
        ∃ number ∈ expected, NumberUnused filenames number := by
  rw [recoverListing_fails_iff]
  refine ⟨fun detected => ?_, ?_⟩
  · by_cases missing : ∃ number ∈ expected, TableMissing filenames number
    · exact .inr (detected missing)
    · exact .inl fun number member isMissing => missing ⟨number, member, isMissing⟩
  · rintro (none' | unused)
    · rintro ⟨number, member, isMissing⟩
      exact absurd isMissing (none' number member)
    · exact fun _ => unused

/-- The version lists table 5, and the directory has a log with that number instead. -/
theorem missing_table_hidden_by_log :
    TableMissing [currentFileName, descriptorFileName 2, logFileName 5] 5 ∧
      recoverListing 5 0 {5} [currentFileName, descriptorFileName 2, logFileName 5] = .ok [5] := by
  refine ⟨by unfold TableMissing; decide +kernel, ?_⟩
  have left : ([currentFileName, descriptorFileName 2, logFileName 5].foldl (Listing.visit 5 0)
      ⟨{5}, []⟩) = ⟨∅, [5]⟩ := by decide +kernel
  rw [recoverListing, left]
  exact dif_neg Finset.not_nonempty_empty

end LevelDb
