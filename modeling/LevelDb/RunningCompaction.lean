/-
This file models memtable flushes from inside a running compaction. `DoCompactionWork` releases
the mutex while it visits its input, so writes and memtable switches go on, and the loop itself
calls `CompactMemTable` when an immutable memtable is waiting. A flush chooses the level of its
table on a version that still holds the inputs of the compaction.

A table that goes to the output level meets no input. It lies before or after all of them, or
in a gap between two of them; in a gap an output of the compaction may reach over it. The
inputs of automatic compactions have no gaps, those of manual ones may have.
-/

import LevelDb.DbRuns

namespace LevelDb

variable {α β : Type} [LinearOrder α]

/-! ### The loop with other steps in between -/

/-- A compaction in progress: the database, the state of the loop and the input still to be
visited. -/
structure RunningCompaction (α β : Type) where
  db : Db α β
  loop : CompactionState α β
  remaining : List (Entry α β)

def RunningCompaction.start (db : Db α β) (compaction : Compaction α β) : RunningCompaction α β :=
  ⟨db, CompactionState.initial db.nextFileNumber, makeInputIterator compaction⟩

/-- What can happen while a compaction runs: the loop visits its next entry, or a step of the
database is taken. Flushes are such steps; there is no second compaction. -/
inductive LoopAction (α β : Type)
  | visit
  | other (action : Action α β)

/-- The steps a compaction does not exclude. -/
def Action.besideCompaction : Action α β → Bool
  | .backgroundCompaction => false
  | .manualCompaction _ _ _ => false
  | _ => true

/-- One step. The loop and the database draw file numbers from one counter. -/
def RunningCompaction.step [Inhabited β] (options : Options α β) (compaction : Compaction α β)
    (smallestSnapshot : Nat) (state : RunningCompaction α β) :
    LoopAction α β → Option (RunningCompaction α β)
  | .visit =>
    match state.remaining with
    | [] => none
    | entry :: rest =>
      let loop := { state.loop with nextFileNumber := state.db.nextFileNumber }.step options
        compaction smallestSnapshot entry
      some ⟨{ state.db with nextFileNumber := loop.nextFileNumber }, loop, rest⟩
  | .other action =>
    if action.besideCompaction then
      (state.db.step options action).map fun db => { state with db }
    else none

/-- The files of the outputs made so far, the one being built included. -/
def RunningCompaction.outputs (options : Options α β) (state : RunningCompaction α β) :
    List (FileMetaData α β) :=
  state.loop.finish.outputs.map (Output.toFile options)

/-- The user keys of the file lie before or after those of all inputs. -/
def Compaction.Outside (compaction : Compaction α β) (file : FileMetaData α β) : Prop :=
  (∀ input ∈ compaction.inputs0 ++ compaction.inputs1,
      file.largest.userKey < input.smallest.userKey) ∨
    ∀ input ∈ compaction.inputs0 ++ compaction.inputs1,
      input.largest.userKey < file.smallest.userKey

/-- The step is not a flush that places its table at the output level in a gap between the
inputs. -/
def RunningCompaction.AvoidsGaps (options : Options α β) (compaction : Compaction α β)
    (state : RunningCompaction α β) : LoopAction α β → Prop
  | .other .compactMemTable =>
    ∀ imm ∈ state.db.imm, ∀ file ∈ buildTable options state.db.nextFileNumber imm,
      outputLevel options (some state.db.version) file = compaction.level + 1 →
        compaction.Outside file
  | _ => True

instance (compaction : Compaction α β) (file : FileMetaData α β) :
    Decidable (compaction.Outside file) :=
  inferInstanceAs (Decidable (_ ∨ _))

instance (options : Options α β) (compaction : Compaction α β) (state : RunningCompaction α β)
    (action : LoopAction α β) : Decidable (state.AvoidsGaps options compaction action) :=
  match action with
  | .other .compactMemTable => inferInstanceAs (Decidable (∀ imm ∈ state.db.imm, _))
  | .visit => isTrue trivial
  | .other (.write _) => isTrue trivial
  | .other .getSnapshot => isTrue trivial
  | .other (.releaseSnapshot _) => isTrue trivial
  | .other .switchMemTable => isTrue trivial
  | .other (.chargeSeek _ _) => isTrue trivial
  | .other .backgroundCompaction => isTrue trivial
  | .other (.manualCompaction _ _ _) => isTrue trivial

/-! ### What a step keeps -/

/-- The file lies before or after all input entries. -/
def Compaction.Beside (compaction : Compaction α β) (file : FileMetaData α β) : Prop :=
  (∀ entry ∈ compaction.inputEntries, file.largest < entry.key) ∨
    ∀ entry ∈ compaction.inputEntries, entry.key < file.smallest

/-- What holds while the compaction runs: the files of the version it started on are still
there, the other files of the output level lie beside its inputs, and its outputs are made of
input entries. -/
structure RunningCompaction.Inv (base : Version α β) (compaction : Compaction α β)
    (state : RunningCompaction α β) : Prop where
  aged : ∃ flushed switched, state.db.Aged flushed switched
  keeps : ∀ level, ∀ file ∈ base.files level, file ∈ state.db.version.files level
  beside : ∀ file ∈ state.db.version.files (compaction.level + 1), file ∉ compaction.inputs1 →
    compaction.Beside file
  fills : ∃ kept, state.loop.Fills kept ∧ ∀ entry ∈ kept, entry ∈ compaction.inputEntries
  remaining : ∀ entry ∈ state.remaining, entry ∈ compaction.inputEntries

variable {compaction : Compaction α β}

theorem RunningCompaction.start_inv {db : Db α β} {flushed switched : Nat}
    (aged : db.Aged flushed switched)
    (chosen : compaction.Chosen db.version) :
    (RunningCompaction.start db compaction).Inv db.version compaction := by
  refine ⟨⟨flushed, switched, aged⟩, fun level file member => member, ?_, ?_, ?_⟩
  · exact fun file member notInput =>
      chosen.apart aged.shape.sorted aged.shape.distinct member notInput
  · exact ⟨[], initial_fills _, fun entry member => absurd member List.not_mem_nil⟩
  · intro entry member
    exact mem_fileEntries.mpr ((makeInputIterator_perm compaction).mem_iff.mp member)

theorem Compaction.Outside.beside {version : Version α β} (sorted : version.Sorted)
    (chosen : compaction.Chosen version) {file : FileMetaData α β}
    (outside : compaction.Outside file) : compaction.Beside file := by
  have covered : ∀ entry ∈ compaction.inputEntries,
      ∃ input ∈ compaction.inputs0 ++ compaction.inputs1, input.Covers entry.userKey := by
    rintro entry ⟨input, member, inFile⟩
    exact ⟨input, member, (chosen.input_valid sorted member).covers inFile⟩
  rcases outside with before | after
  · refine Or.inl fun entry member => ?_
    obtain ⟨input, inInputs, covers⟩ := covered entry member
    exact InternalKey.lt_of_userKey_lt ((before input inInputs).trans_le covers.1)
  · refine Or.inr fun entry member => ?_
    obtain ⟨input, inInputs, covers⟩ := covered entry member
    exact InternalKey.lt_of_userKey_lt (covers.2.trans_lt (after input inInputs))

variable {action : Action α β}

theorem Db.chosen_eq_none (isBeside : action.besideCompaction = true)
    (options : Options α β) (db : Db α β) : db.chosen options action = none := by
  cases action with
  | backgroundCompaction => cases isBeside
  | manualCompaction level first last => cases isBeside
  | _ => rfl

variable {options : Options α β}

/-- A step of the database beside a compaction leaves the version or flushes into it. -/
theorem Db.step_beside [Inhabited β] {db db' : Db α β} (isBeside : action.besideCompaction = true)
    (taken : db.step options action = some db') :
    db'.version.files = db.version.files ∨
      (action = .compactMemTable ∧ ∃ imm ∈ db.imm, db'.version = db.version.applyEdit
        (writeLevel0Table options (some db.version) db.nextFileNumber imm {})) := by
  have none := Db.chosen_eq_none isBeside options db
  cases Db.step_version taken with
  | same files _ => exact Or.inl files
  | flush imm isFlush isImm version _ => exact Or.inr ⟨isFlush, imm, isImm, version⟩
  | move compaction chooses _ _ _ =>
    rw [none] at chooses
    cases chooses
  | compact compaction chooses _ _ =>
    rw [none] at chooses
    cases chooses

variable {state : RunningCompaction α β} {base : Version α β}

theorem RunningCompaction.Inv.other [Inhabited β] (sorted : base.Sorted)
    (chosen : compaction.Chosen base) (inv : state.Inv base compaction)
    (avoids : state.AvoidsGaps options compaction (.other action))
    (isBeside : action.besideCompaction = true) {db : Db α β}
    (taken : state.db.step options action = some db) :
    ({ state with db } : RunningCompaction α β).Inv base compaction := by
  obtain ⟨flushed, switched, aged⟩ := inv.aged
  rcases Db.step_beside isBeside taken with files | ⟨isFlush, imm, isImm, version⟩
  · refine ⟨aged.step taken, ?_, ?_, inv.fills, inv.remaining⟩
    · show ∀ level, ∀ file ∈ base.files level, file ∈ db.version.files level
      rw [files]
      exact inv.keeps
    · show ∀ file ∈ db.version.files (compaction.level + 1), _
      rw [files]
      exact inv.beside
  · refine ⟨aged.step taken, ?_, ?_, inv.fills, inv.remaining⟩
    · intro level file member
      show file ∈ db.version.files level
      rw [version]
      exact mem_flush_files.mpr (Or.inl (inv.keeps level file member))
    · intro file member notInput
      have inFlushed : file ∈ db.version.files (compaction.level + 1) := member
      rw [version] at inFlushed
      rcases mem_flush_files.mp inFlushed with old | ⟨table, built, isLevel, rfl⟩
      · exact inv.beside file old notInput
      · subst isFlush
        have outside := avoids imm isImm table built isLevel.symm
        exact outside.beside sorted chosen

theorem Db.Aged.takeNumbers {db : Db α β} {flushed switched : Nat}
    (aged : db.Aged flushed switched) {next : Nat} (grows : db.nextFileNumber ≤ next) :
    ({ db with nextFileNumber := next } : Db α β).Aged flushed switched := by
  obtain ⟨mem, imm, lastSequence, snapshots, version, compactPointer, nextFileNumber⟩ := db
  exact aged.version (aged.shape.mono le_rfl grows) aged.seek rfl rfl rfl

theorem RunningCompaction.Inv.visit
    (inv : state.Inv base compaction) {smallestSnapshot : Nat} {entry : Entry α β}
    {rest : List (Entry α β)} (remaining : state.remaining = entry :: rest)
    {loop : CompactionState α β}
    (isLoop : loop = { state.loop with nextFileNumber := state.db.nextFileNumber }.step options
      compaction smallestSnapshot entry) :
    (⟨{ state.db with nextFileNumber := loop.nextFileNumber }, loop, rest⟩ :
      RunningCompaction α β).Inv base compaction := by
  obtain ⟨flushed, switched, aged⟩ := inv.aged
  obtain ⟨kept, fills, keptInputs⟩ := inv.fills
  have inputs : ∀ other ∈ entry :: rest, other ∈ compaction.inputEntries := by
    rw [← remaining]
    exact inv.remaining
  have grows : state.db.nextFileNumber ≤ loop.nextFileNumber := by
    rw [isLoop]
    exact le_nextFileNumber_step { state.loop with nextFileNumber := state.db.nextFileNumber }
      options compaction smallestSnapshot entry
  have renumbered : { state.loop with nextFileNumber := state.db.nextFileNumber }.Fills kept :=
    ⟨fills.built, fills.entries_eq⟩
  have next := renumbered.step options compaction smallestSnapshot entry
  rw [← isLoop] at next
  refine ⟨⟨flushed, switched, aged.takeNumbers grows⟩, inv.keeps, inv.beside, ⟨_, next, ?_⟩,
    fun other member => inputs other (List.mem_cons_of_mem _ member)⟩
  intro other member
  rcases List.mem_append.mp member with old | new
  · exact keptInputs other old
  · split at new
    · exact absurd new List.not_mem_nil
    · rw [List.mem_singleton.mp new]
      exact inputs entry List.mem_cons_self

theorem RunningCompaction.Inv.step [Inhabited β] {options : Options α β} {base : Version α β}
    (sorted : base.Sorted) {compaction : Compaction α β} (chosen : compaction.Chosen base)
    {smallestSnapshot : Nat} {state state' : RunningCompaction α β}
    (inv : state.Inv base compaction) {action : LoopAction α β}
    (avoids : state.AvoidsGaps options compaction action)
    (taken : state.step options compaction smallestSnapshot action = some state') :
    state'.Inv base compaction := by
  cases action with
  | visit =>
    rw [RunningCompaction.step] at taken
    split at taken
    · cases taken
    · rename_i entry rest remaining
      cases taken
      exact inv.visit remaining rfl
  | other action =>
    rw [RunningCompaction.step] at taken
    split at taken
    · rename_i isBeside
      obtain ⟨db, stepped, rfl⟩ := Option.map_eq_some_iff.mp taken
      exact inv.other sorted chosen avoids isBeside stepped
    · cases taken

/-- When the inputs have no gap, every flush avoids the gaps: a table at the output level meets
no input, so it lies outside. -/
theorem RunningCompaction.Inv.avoidsGaps (sorted : base.Sorted) (chosen : compaction.Chosen base)
    (noGap : NoGap (compaction.inputs0 ++ compaction.inputs1))
    (inv : state.Inv base compaction) (action : LoopAction α β) :
    state.AvoidsGaps options compaction action := by
  cases action with
  | visit => trivial
  | other action =>
    cases action with
    | compactMemTable =>
      intro imm isImm table built isLevel
      obtain ⟨flushed, switched, aged⟩ := inv.aged
      have between := aged.imm imm isImm
      have tableValid := buildTable_valid between.sorted
        (between.tag_le (aged.switched_le.trans aged.last_le)) built
      have tableBounds := InternalKey.userKey_le_of_le tableValid.smallest_le_largest
      have meetsNone : ∀ input ∈ compaction.inputs0 ++ compaction.inputs1,
          ¬ (table.smallest.userKey ≤ input.largest.userKey ∧
            input.smallest.userKey ≤ table.largest.userKey) := by
        intro input member
        rw [← FileMetaData.meets_some_iff, Bool.not_eq_true]
        have positive : 0 < outputLevel options (some state.db.version) table := by
          rw [isLevel]
          exact Nat.succ_pos _
        have spec := pickLevelForMemTableOutput_spec aged.shape.sorted options _ _ positive
        rcases List.mem_append.mp member with in0 | in1
        · exact spec compaction.level ((Nat.le_succ _).trans_eq isLevel.symm) input
            (inv.keeps _ input (chosen.inputs0_sublist.subset in0))
        · exact spec (compaction.level + 1) isLevel.symm.le input
            (inv.keeps _ input (chosen.inputs1_sublist.subset in1))
      by_contra inside
      obtain ⟨notBefore, notAfter⟩ := not_or.mp inside
      push Not at notBefore notAfter
      obtain ⟨first, firstMember, firstStarts⟩ := notBefore
      obtain ⟨last, lastMember, lastEnds⟩ := notAfter
      have firstEnds : first.largest.userKey < table.smallest.userKey := by
        by_contra reaches
        exact meetsNone first firstMember ⟨not_lt.mp reaches, firstStarts⟩
      have firstBounds := InternalKey.userKey_le_of_le
        (chosen.input_valid sorted firstMember).smallest_le_largest
      obtain ⟨covering, coveringMember, covers⟩ := noGap table.smallest.userKey
        ⟨first, firstMember, firstBounds.trans firstEnds.le⟩ ⟨last, lastMember, lastEnds⟩
      exact meetsNone covering coveringMember ⟨covers.2, covers.1.trans tableBounds⟩
    | _ => trivial

/-! ### No output overlaps another file of its level -/

/-- No output made so far overlaps a file of the output level that is not an input. -/
def RunningCompaction.OutputsApart (options : Options α β) (compaction : Compaction α β)
    (state : RunningCompaction α β) : Prop :=
  ∀ file ∈ state.db.version.files (compaction.level + 1), file ∉ compaction.inputs1 →
    ∀ output ∈ state.outputs options, file.Apart output

theorem RunningCompaction.Inv.outputsApart
    (inv : state.Inv base compaction) : state.OutputsApart options compaction := by
  intro file member notInput output inOutputs
  obtain ⟨kept, fills, keptInputs⟩ := inv.fills
  obtain ⟨source, inSources, rfl⟩ := List.mem_map.mp inOutputs
  have inAll : source ∈ state.loop.allOutputs := inSources
  have entries : ∀ entry ∈ source.entries, entry ∈ compaction.inputEntries := by
    intro entry inSource
    refine keptInputs entry ?_
    rw [← fills.entries_eq]
    exact List.mem_flatMap.mpr ⟨source, inAll, inSource⟩
  obtain ⟨⟨first, head, smallest⟩, ⟨last, getLast, largest⟩⟩ := fills.built source inAll
  rcases inv.beside file member notInput with before | after
  · have order := before first (entries first (List.mem_of_mem_head? head))
    rw [smallest] at order
    exact Or.inl order
  · have order := after last (entries last (List.mem_of_getLast? getLast))
    rw [largest] at order
    exact Or.inr order

/-- While a compaction runs, and so when its outputs are installed, no output overlaps another
file of the output level, provided that no flush places a table at that level in a gap between
the inputs. Automatic compactions need no such condition. -/
theorem outputs_apart_while_running [Inhabited β] (options : Options α β) (db : Db α β)
    (flushed switched : Nat) (aged : db.Aged flushed switched) (action : Action α β)
    (compaction : Compaction α β) (chooses : db.chosen options action = some compaction) :
    (∀ state, Lib.Reachable (RunningCompaction.step options compaction
          (oldestSnapshot db.snapshots db.lastSequence))
        (RunningCompaction.AvoidsGaps options compaction) (RunningCompaction.start db compaction)
        state → state.OutputsApart options compaction) ∧
      (action = .backgroundCompaction → ∀ state, Lib.Reachable
          (RunningCompaction.step options compaction
            (oldestSnapshot db.snapshots db.lastSequence))
          (fun _ _ => True) (RunningCompaction.start db compaction) state →
        state.OutputsApart options compaction) := by
  have chosen := Db.chosen_chosen aged chooses
  have sorted := aged.shape.sorted
  constructor
  · intro state reachable
    refine RunningCompaction.Inv.outputsApart (Lib.Reachable.invariant
      (RunningCompaction.start_inv aged chosen) ?_ reachable)
    intro state action state' inv avoids taken
    exact inv.step sorted chosen avoids taken
  · rintro rfl state reachable
    have ordered : ∀ level, ∀ file ∈ db.version.files level, file.smallest ≤ file.largest :=
      fun level file member => (sorted.valid level file member).smallest_le_largest
    obtain ⟨level, file, member, picked⟩ := pickCompaction_picked aged.seek chooses
    have noGap := setupPicked_noGap ordered member picked
    refine RunningCompaction.Inv.outputsApart (Lib.Reachable.invariant
      (RunningCompaction.start_inv aged chosen) ?_ reachable)
    intro state action state' inv _ taken
    exact inv.step sorted chosen (inv.avoidsGaps sorted chosen noGap action) taken

/-- A memtable with one entry, written, switched and flushed. -/
def flushOne (userKey : Nat) : List (Action Nat Nat) :=
  [.write [.put userKey 1], .switchMemTable, .compactMemTable]

/-- Two user keys, each with a file at levels 1 and 2. -/
def twoKeys : List (Action Nat Nat) :=
  flushOne 1 ++ flushOne 5 ++ flushOne 1 ++ flushOne 5

/-- A flush of one more user key while the compaction visits its four input entries. -/
def flushThenVisit (userKey : Nat) : List (LoopAction Nat Nat) :=
  (flushOne userKey).map .other ++ [.visit, .visit, .visit, .visit]

theorem outputs_apart_while_running_above :
    ∃ db flushed switched compaction state, Db.Aged db flushed switched ∧
      db.chosen sizedOptions (.manualCompaction 1 none none) = some compaction ∧
      Lib.Reachable (RunningCompaction.step sizedOptions compaction
          (oldestSnapshot db.snapshots db.lastSequence))
        (RunningCompaction.AvoidsGaps sizedOptions compaction)
        (RunningCompaction.start db compaction) state ∧
      state.remaining = [] ∧ (state.outputs sizedOptions).length = 1 ∧
      (state.db.version.files 2).length = 3 ∧ state.OutputsApart sizedOptions compaction := by
  obtain ⟨db, reachable, holds⟩ := Lib.exists_of_run
    (show (Lib.run (Db.step sizedOptions) (fun _ _ => True) Db.empty twoKeys).any (fun db =>
      (db.chosen sizedOptions (.manualCompaction 1 none none)).any fun compaction =>
        (Lib.run (RunningCompaction.step sizedOptions compaction
            (oldestSnapshot db.snapshots db.lastSequence))
          (RunningCompaction.AvoidsGaps sizedOptions compaction)
          (RunningCompaction.start db compaction) (flushThenVisit 9)).any fun state =>
            state.remaining.isEmpty && (state.outputs sizedOptions).length == 1 &&
              (state.db.version.files 2).length == 3) = true by decide +kernel)
  obtain ⟨flushed, switched, aged⟩ := Db.aged_of_reachable reachable
  obtain ⟨compaction, chooses, holds⟩ := (Option.any_eq_true _ _).mp holds
  obtain ⟨state, running, holds⟩ := Lib.exists_of_run holds
  simp only [Bool.and_eq_true, beq_iff_eq, List.isEmpty_iff] at holds
  exact ⟨db, flushed, switched, compaction, state, aged, chooses, running, holds.1.1, holds.1.2,
    holds.2, (outputs_apart_while_running sizedOptions db flushed switched aged _ compaction
      chooses).1 state running⟩

/-- A manual compaction of user keys 1 and 5 whose output reaches over a table with user key 3
that was flushed to the output level while it ran. -/
theorem outputs_overlap_flush_in_gap :
    ∃ db flushed switched compaction state, Db.Aged db flushed switched ∧
      db.chosen sizedOptions (.manualCompaction 1 none none) = some compaction ∧
      Lib.Reachable (RunningCompaction.step sizedOptions compaction
          (oldestSnapshot db.snapshots db.lastSequence)) (fun _ _ => True)
        (RunningCompaction.start db compaction) state ∧
      state.remaining = [] ∧ ¬ state.OutputsApart sizedOptions compaction := by
  obtain ⟨db, reachable, holds⟩ := Lib.exists_of_run
    (show (Lib.run (Db.step sizedOptions) (fun _ _ => True) Db.empty twoKeys).any (fun db =>
      (db.chosen sizedOptions (.manualCompaction 1 none none)).any fun compaction =>
        (Lib.run (RunningCompaction.step sizedOptions compaction
            (oldestSnapshot db.snapshots db.lastSequence)) (fun _ _ => True)
          (RunningCompaction.start db compaction) (flushThenVisit 3)).any fun state =>
            state.remaining.isEmpty && (compaction.level == 1) &&
              (state.db.version.files 2).any fun file =>
                (compaction.inputs1.all fun input => input.number != file.number) &&
                  (state.outputs sizedOptions).any fun output =>
                    decide (output.smallest ≤ file.largest) &&
                      decide (file.smallest ≤ output.largest)) = true by decide +kernel)
  obtain ⟨flushed, switched, aged⟩ := Db.aged_of_reachable reachable
  obtain ⟨compaction, chooses, holds⟩ := (Option.any_eq_true _ _).mp holds
  obtain ⟨state, running, holds⟩ := Lib.exists_of_run holds
  simp only [Bool.and_eq_true, beq_iff_eq, List.isEmpty_iff, List.any_eq_true, List.all_eq_true,
    decide_eq_true_eq, bne_iff_ne] at holds
  obtain ⟨⟨done, isLevel⟩, file, inLevel, notInput, output, inOutputs, reaches, starts⟩ := holds
  refine ⟨db, flushed, switched, compaction, state, aged, chooses, running, done, fun apart => ?_⟩
  have notMember : file ∉ compaction.inputs1 := fun member => notInput file member rfl
  have inOutputLevel : file ∈ state.db.version.files (compaction.level + 1) := by
    rw [isLevel]
    exact inLevel
  rcases apart file inOutputLevel notMember output inOutputs with before | after
  · exact absurd before (not_lt_of_ge reaches)
  · exact absurd after (not_lt_of_ge starts)

end LevelDb
