/-
This file proves that the reference counts of a version set are exact. Every operation keeps the
counts of versions and files in balance with the references that the current version, the clients,
the versions and the builders hold, as long as no builder is given the same file twice. A file that
is given twice is not inserted into the set of the builder, and its object keeps the one reference
nobody will drop.
-/

import LevelDb.VersionRefs

namespace LevelDb

variable {α β : Type}

/-! ### Listings -/

/-- Replacing the list of one level exchanges what is listed there. -/
theorem listing_update {files : Nat → List Nat} {level : Nat} (inRange : level < Config.kNumLevels)
    (new : List Nat) (file : Nat) :
    (listing (Function.update files level new)).count file + (files level).count file =
      (listing files).count file + new.count file := by
  have exchanged := (@Lib.gather_update _ _ _ files inRange new).count_eq file
  rwa [List.count_append, List.count_append] at exchanged

theorem mem_listing {files : Nat → List Nat} {level file : Nat}
    (inRange : level < Config.kNumLevels) (member : file ∈ files level) : file ∈ listing files :=
  Lib.mem_gather.mpr ⟨level, inRange, member⟩

@[simp] theorem listing_nil : listing (fun _ => []) = [] := Lib.gather_nil _

namespace VersionHeap

/-! ### The invariant -/

/-- The counts of the objects are in balance with the references to them, every file is
referenced, and addresses to come are fresh. The references to versions are a parameter, since an
operation moves them one at a time. -/
structure Counts (heap : VersionHeap α β) (references : Nat → Nat) : Prop where
  versions : heap.versions.Balanced references
  files : heap.files.Balanced heap.fileRefs
  used : heap.files.Used heap.fileRefs
  file_lt : ∀ file ∈ heap.files.numbers, file < heap.nextAddress
  version_lt : ∀ version ∈ heap.versions.numbers, version < heap.nextAddress
  builder_lt : ∀ builder ∈ heap.builders.numbers, builder < heap.nextAddress
  next_pos : 0 < heap.nextAddress

/-- The circular list holds the versions with references; a version without any is linked to
itself. -/
structure Threaded (links : Lib.Links Nat) (versions : Finset Nat) (references : Nat → Nat) :
    Prop where
  version_pos : ∀ version ∈ versions, 0 < version
  ring : ∃ members, links.Ring 0 members ∧
    ∀ version, version ∈ members ↔ version ∈ versions ∧ 0 < references version
  alone : ∀ version ∈ versions, references version = 0 →
    links.next version = version ∧ links.prev version = version

variable {heap heap' : VersionHeap α β} {references references' : Nat → Nat} {version : Nat}

theorem Threaded.congr {links : Lib.Links Nat} {versions : Finset Nat}
    (threaded : Threaded links versions references)
    (same : ∀ other ∈ versions, (0 < references' other ↔ 0 < references other)) :
    Threaded links versions references' := by
  obtain ⟨members, ring, listed⟩ := threaded.ring
  refine ⟨threaded.version_pos, ⟨members, ring, fun other => ?_⟩, fun other member unused => ?_⟩
  · rw [listed]
    exact and_congr_right fun member => (same other member).symm
  · refine threaded.alone other member (Nat.eq_zero_of_not_pos fun held => ?_)
    rw [← same other member, unused] at held
    exact lt_irrefl 0 held

/-- A version whose count changes keeps what it lists. -/
theorem fileRefs_put_refs (member : version ∈ heap.versions.numbers) (count : Int) :
    { heap with
      versions := heap.versions.put version ⟨count, heap.versions.value version⟩ }.fileRefs =
      heap.fileRefs := by
  funext file
  have weights := @Lib.Shelf.total_put_refs _ (fun files => (listing files).count file) _ _ member
    count
  exact congrArg (fun listed => listed + heap.additions file) weights

theorem Counts.putRefs (counts : heap.Counts references) (member : version ∈ heap.versions.numbers)
    {count : Int} (new : (references' version : Int) = count)
    (others : ∀ other, other ≠ version → references' other = references other) :
    { heap with versions := heap.versions.put version ⟨count, heap.versions.value version⟩ }.Counts
      references' := by
  have fileRefs := fileRefs_put_refs member count
  have numbers : (heap.versions.put version ⟨count, heap.versions.value version⟩).numbers =
      heap.versions.numbers := Finset.insert_eq_of_mem member
  exact ⟨counts.versions.put _ new others, fileRefs ▸ counts.files, fileRefs ▸ counts.used,
    counts.file_lt, numbers ▸ counts.version_lt, counts.builder_lt, counts.next_pos⟩

theorem Counts.refVersion (counts : heap.Counts references)
    (member : version ∈ heap.versions.numbers)
    (taken : ∀ other, references' other = references other + if other = version then 1 else 0) :
    (heap.refVersion version).Counts references' := by
  refine counts.putRefs member ?_ fun other different => ?_
  · rw [taken, if_pos rfl, counts.versions.refs_eq version member]
    rfl
  · rw [taken, if_neg different, Nat.add_zero]

/-- Destroying a version drops one reference for each file it lists. -/
theorem Counts.deleteVersion (counts : heap.Counts references)
    (member : version ∈ heap.versions.numbers) (unused : references version = 0) :
    (heap.deleteVersion version).Counts references := by
  have dropped : ∀ file, heap.fileRefs file = (heap.deleteVersion version).fileRefs file +
      (listing (heap.versions.value version)).count file := by
    intro file
    have weights := @Lib.Shelf.total_remove _
      (fun object : Lib.Counted (Nat → List Nat) => (listing object.value).count file) _ _ member
    have fewer : heap.listings file = (heap.deleteVersion version).listings file +
      (listing (heap.versions.value version)).count file := weights.symm
    rw [fileRefs, fileRefs, fewer, Nat.add_right_comm]
    rfl
  have used : (heap.deleteVersion version).files.Used (heap.deleteVersion version).fileRefs :=
    counts.used.releaseAll counts.files dropped
  refine ⟨counts.versions.remove unused, counts.files.releaseAll dropped, used,
    fun file fileMember => counts.file_lt file (counts.files.mem_of_pos file ?_),
    fun other otherMember => counts.version_lt other (Lib.Shelf.mem_remove.mp otherMember).2,
    counts.builder_lt, counts.next_pos⟩
  have positive := used file fileMember
  rw [dropped]
  omega

/-! ### The circular list -/

section

variable {links : Lib.Links Nat} {versions : Finset Nat}

/-- A new version is linked to itself. -/
theorem Threaded.newVersion (threaded : Threaded links versions references) {address : Nat}
    (positive : 0 < address) (fresh : address ∉ versions) (unused : references address = 0) :
    Threaded ((links.setNext address address).setPrev address address) (insert address versions)
      references := by
  obtain ⟨members, ring, listed⟩ := threaded.ring
  have notMember : address ∉ members := fun member => fresh ((listed address).mp member).1
  refine ⟨fun version member => ?_, ⟨members, ring.frame ?_ ?_, fun version => ?_⟩,
    fun version member zero => ?_⟩
  · rcases Finset.mem_insert.mp member with rfl | old
    · exact positive
    · exact threaded.version_pos version old
  · intro other member
    refine Function.update_of_ne (fun same => ?_) _ _
    rcases List.mem_cons.mp (same ▸ member) with zero | inMembers
    · exact positive.ne' zero
    · exact notMember inMembers
  · intro other member
    refine Function.update_of_ne (fun same => ?_) _ _
    rcases List.mem_cons.mp (same ▸ member) with zero | inMembers
    · exact positive.ne' zero
    · exact notMember inMembers
  · rw [listed, Finset.mem_insert]
    refine and_congr_left fun held => (or_iff_right fun same => ?_).symm
    rw [same, unused] at held
    exact lt_irrefl 0 held
  · simp only [Lib.Links.setPrev_next, Lib.Links.setNext_next, Lib.Links.setPrev_prev,
      Lib.Links.setNext_prev, Function.update_apply]
    split
    · rename_i same
      exact ⟨same.symm, same.symm⟩
    · rename_i different
      exact threaded.alone version ((Finset.mem_insert.mp member).resolve_left different) zero

/-- The other versions keep their place when one is destroyed. -/
theorem Threaded.remove (threaded : Threaded links versions references)
    (member : version ∈ versions)
    (others : ∀ other, other ≠ version → references' other = references other) :
    Threaded (links.remove version) (versions.erase version) references' := by
  obtain ⟨members, ring, listed⟩ := threaded.ring
  have pos : ∀ other ∈ versions.erase version, 0 < other := fun other inErase =>
    threaded.version_pos other (Finset.mem_of_mem_erase inErase)
  by_cases held : 0 < references version
  · have inRing : version ∈ members := (listed version).mpr ⟨member, held⟩
    refine ⟨pos, ⟨members.erase version, ring.remove inRing, fun other => ?_⟩,
      fun other inErase zero => ?_⟩
    · rw [ring.members_nodup.mem_erase_iff, listed, Finset.mem_erase, and_assoc]
      exact and_congr_right fun different => by rw [others other different]
    · obtain ⟨different, otherMember⟩ := Finset.mem_erase.mp inErase
      have unused : references other = 0 := (others other different).symm.trans zero
      have outside : other ∉ 0 :: members := by
        intro inside
        rcases List.mem_cons.mp inside with isHead | isMember
        · exact (threaded.version_pos other otherMember).ne' isHead
        · have used := ((listed other).mp isMember).2
          rw [unused] at used
          exact lt_irrefl 0 used
      rw [Lib.Links.remove_next, Lib.Links.remove_prev,
        if_neg (ne_of_mem_of_not_mem (ring.prev_mem inRing) outside).symm,
        if_neg (ne_of_mem_of_not_mem (ring.next_mem inRing) outside).symm]
      exact threaded.alone other otherMember unused
  · have unused : references version = 0 := Nat.eq_zero_of_not_pos held
    obtain ⟨next, prev⟩ := threaded.alone version member unused
    rw [Lib.Links.remove_of_alone next prev]
    refine ⟨pos, ⟨members, ring, fun other => ?_⟩, fun other inErase zero => ?_⟩
    · rw [listed, Finset.mem_erase, and_assoc]
      constructor
      · rintro ⟨otherMember, used⟩
        have different : other ≠ version := fun same => held (same ▸ used)
        exact ⟨different, otherMember, (others other different).symm ▸ used⟩
      · rintro ⟨different, otherMember, used⟩
        exact ⟨otherMember, others other different ▸ used⟩
    · obtain ⟨different, otherMember⟩ := Finset.mem_erase.mp inErase
      exact threaded.alone other otherMember ((others other different).symm.trans zero)

/-- A version that gets its first reference is appended. -/
theorem Threaded.append (threaded : Threaded links versions references)
    (member : version ∈ versions) (unused : references version = 0)
    (taken : ∀ other, references' other = references other + if other = version then 1 else 0) :
    Threaded (links.append 0 version) versions references' := by
  obtain ⟨members, ring, listed⟩ := threaded.ring
  have notMember : version ∉ members := by
    intro inside
    have used := ((listed version).mp inside).2
    rw [unused] at used
    exact lt_irrefl 0 used
  have notHead : version ≠ 0 := (threaded.version_pos version member).ne'
  have fresh : version ∉ 0 :: members := fun inside =>
    (List.mem_cons.mp inside).elim notHead notMember
  refine ⟨threaded.version_pos, ⟨members ++ [version], ring.append fresh, fun other => ?_⟩,
    fun other otherMember zero => ?_⟩
  · rw [List.mem_append, List.mem_singleton, listed, taken]
    split
    · rename_i same
      rw [same]
      exact iff_of_true (Or.inr rfl) ⟨member, Nat.succ_pos _⟩
    · rename_i different
      rw [Nat.add_zero, or_iff_left different]
  · have different : other ≠ version := by
      intro same
      rw [taken, if_pos same] at zero
      exact Nat.succ_ne_zero _ zero
    rw [taken, if_neg different, Nat.add_zero] at zero
    have outside : other ∉ 0 :: members := by
      intro inside
      rcases List.mem_cons.mp inside with isHead | isMember
      · exact (threaded.version_pos other otherMember).ne' isHead
      · have used := ((listed other).mp isMember).2
        rw [zero] at used
        exact lt_irrefl 0 used
    have apart : links.prev 0 ≠ version := fun same => fresh (same ▸ ring.prev_head_mem)
    rw [Lib.Links.append_next, Lib.Links.append_prev apart,
      if_neg (ne_of_mem_of_not_mem ring.prev_head_mem outside).symm, if_neg different,
      if_neg (ne_of_mem_of_not_mem List.mem_cons_self outside).symm, if_neg different]
    exact threaded.alone other otherMember zero

end

/-! ### References to versions -/

/-- The counts are exact and the versions are in their list. -/
structure Sound (heap : VersionHeap α β) (references : Nat → Nat) : Prop where
  counts : heap.Counts references
  threaded : Threaded heap.links heap.versions.numbers references

theorem Sound.congr (sound : heap.Sound references)
    (same : ∀ other, references' other = references other) : heap.Sound references' :=
  (funext same : references' = references) ▸ sound

/-- Taking a reference to a version that has one. -/
theorem Sound.refVersion (sound : heap.Sound references) (held : 0 < references version)
    (taken : ∀ other, references' other = references other + if other = version then 1 else 0) :
    (heap.refVersion version).Sound references' := by
  have member := sound.counts.versions.mem_of_pos version held
  have numbers : (heap.refVersion version).versions.numbers = heap.versions.numbers :=
    Finset.insert_eq_of_mem member
  refine ⟨sound.counts.refVersion member taken, ?_⟩
  rw [numbers]
  refine sound.threaded.congr fun other _ => ?_
  rw [taken]
  split
  · rename_i same
    rw [same]
    exact iff_of_true (Nat.succ_pos _) held
  · rw [Nat.add_zero]

/-- Dropping a reference; the last one destroys the version. -/
theorem Sound.unrefVersion (sound : heap.Sound references)
    (dropped : ∀ other, references other = references' other + if other = version then 1 else 0) :
    (heap.unrefVersion version).Sound references' := by
  have held : references version = references' version + 1 := by rw [dropped, if_pos rfl]
  have others : ∀ other, other ≠ version → references' other = references other := by
    intro other different
    rw [dropped, if_neg different, Nat.add_zero]
  have member : version ∈ heap.versions.numbers :=
    sound.counts.versions.mem_of_pos version (held ▸ Nat.succ_pos _)
  have refs := sound.counts.versions.refs_eq version member
  have lowered : { heap with versions := heap.versions.unref version }.Counts references' :=
    sound.counts.putRefs member (by rw [refs, held]; push_cast; omega) others
  have numbers : (heap.versions.unref version).numbers = heap.versions.numbers :=
    Finset.insert_eq_of_mem member
  have count : (heap.versions.unref version).refs version = references' version :=
    lowered.versions.refs_eq version (numbers ▸ member)
  rw [VersionHeap.unrefVersion]
  split
  · rename_i isZero
    have unused : references' version = 0 := by
      have zero : (heap.versions.unref version).refs version = 0 := isZero
      rw [count] at zero
      exact_mod_cast zero
    refine ⟨lowered.deleteVersion (numbers ▸ member) unused, ?_⟩
    have erased : (Lib.Shelf.remove (heap.versions.unref version) version).numbers =
        heap.versions.numbers.erase version := congrArg (Finset.erase · version) numbers
    exact erased ▸ sound.threaded.remove member others
  · rename_i notZero
    refine ⟨lowered, ?_⟩
    have kept : 0 < references' version := by
      have positive : (heap.versions.unref version).refs version ≠ 0 := notZero
      rw [count] at positive
      exact Nat.pos_of_ne_zero (by exact_mod_cast positive)
    have threaded : Threaded heap.links heap.versions.numbers references' :=
      sound.threaded.congr fun other _ => by
        by_cases same : other = version
        · rw [same]
          exact iff_of_true kept (held ▸ Nat.succ_pos _)
        · rw [others other same]
    exact numbers ▸ threaded

/-- Making a version that nothing refers to yet. -/
theorem Sound.newVersion (sound : heap.Sound references) :
    heap.newVersion.Sound references := by
  have fresh : heap.nextAddress ∉ heap.versions.numbers := fun member =>
    lt_irrefl _ (sound.counts.version_lt _ member)
  have unused : references heap.nextAddress = 0 :=
    Nat.eq_zero_of_not_pos fun held => fresh (sound.counts.versions.mem_of_pos _ held)
  have fileRefs : heap.newVersion.fileRefs = heap.fileRefs := by
    funext file
    have weights := @Lib.Shelf.total_put_new _
      (fun object : Lib.Counted (Nat → List Nat) => (listing object.value).count file)
      heap.versions _ ⟨0, fun _ => []⟩ fresh
    simp only [listing_nil, List.count_nil, Nat.add_zero] at weights
    exact congrArg (fun listed => listed + heap.additions file) weights
  refine ⟨⟨sound.counts.versions.put _ ?_ fun other _ => rfl, fileRefs ▸ sound.counts.files,
    fileRefs ▸ sound.counts.used, fun file member => (sound.counts.file_lt file member).trans
      (Nat.lt_succ_self _), fun version member => ?_, fun builder member =>
      (sound.counts.builder_lt builder member).trans (Nat.lt_succ_self _), Nat.succ_pos _⟩,
    sound.threaded.newVersion sound.counts.next_pos fresh unused⟩
  · rw [unused]
    rfl
  · rcases Lib.Shelf.mem_put.mp member with rfl | old
    · exact Nat.lt_succ_self _
    · exact (sound.counts.version_lt version old).trans (Nat.lt_succ_self _)

/-- Making a version current drops the reference to the old one and takes one to the new one. -/
theorem Sound.appendVersion (sound : heap.Sound references) (unlisted : heap.Unlisted version)
    {middle : Nat → Nat}
    (dropped : ∀ other, references other = middle other + if other = heap.current then 1 else 0)
    (taken : ∀ other, references' other = middle other + if other = version then 1 else 0) :
    (heap.appendVersion version).Sound references' := by
  have unreffed := sound.unrefVersion dropped
  have unused : references version = 0 := by
    have refs := sound.counts.versions.refs_eq version unlisted.1
    rw [unlisted.2] at refs
    exact_mod_cast refs.symm
  have notCurrent : version ≠ heap.current := by
    intro same
    rw [same, dropped, if_pos rfl] at unused
    exact Nat.succ_ne_zero _ unused
  have middleUnused : middle version = 0 := by
    rw [dropped, if_neg notCurrent] at unused
    exact unused
  have member : version ∈ (heap.unrefVersion heap.current).versions.numbers := by
    rw [VersionHeap.unrefVersion]
    have kept : version ∈ (heap.versions.unref heap.current).numbers :=
      Lib.Shelf.mem_put.mpr (Or.inr unlisted.1)
    split
    · exact Lib.Shelf.mem_remove.mpr ⟨notCurrent, kept⟩
    · exact kept
  have numbers : ((heap.unrefVersion heap.current).versions.ref version).numbers =
      (heap.unrefVersion heap.current).versions.numbers := Finset.insert_eq_of_mem member
  have referenced := unreffed.counts.refVersion member taken
  refine ⟨⟨referenced.versions, referenced.files, referenced.used, referenced.file_lt,
    referenced.version_lt, referenced.builder_lt, referenced.next_pos⟩, ?_⟩
  have threaded := unreffed.threaded.append member middleUnused taken
  rw [← numbers] at threaded
  exact threaded

/-! ### Builders -/

/-- Builders change and so may the references they hold, but not those to files. -/
theorem Counts.withBuilders (counts : heap.Counts references) {builders : Lib.Shelf BuilderObject}
    {next : Nat} (notLess : heap.nextAddress ≤ next)
    (additions : ∀ file, { heap with builders := builders }.additions file = heap.additions file)
    (builder_lt : ∀ builder ∈ builders.numbers, builder < next) :
    { heap with builders := builders, nextAddress := next }.Counts references := by
  have fileRefs :
      { heap with builders := builders, nextAddress := next }.fileRefs = heap.fileRefs := by
    funext file
    exact congrArg (heap.listings file + ·) (additions file)
  exact ⟨counts.versions, fileRefs ▸ counts.files, fileRefs ▸ counts.used,
    fun file member => (counts.file_lt file member).trans_le notLess,
    fun version member => (counts.version_lt version member).trans_le notLess, builder_lt,
    counts.next_pos.trans_le notLess⟩

theorem Sound.newBuilder (sound : heap.Sound references) {base : Nat} (held : 0 < references base)
    (taken : ∀ other, references' other = references other + if other = base then 1 else 0) :
    (heap.newBuilder base).Sound references' := by
  have referenced := sound.refVersion held taken
  have fresh : heap.nextAddress ∉ heap.builders.numbers := fun member =>
    lt_irrefl _ (sound.counts.builder_lt _ member)
  refine ⟨referenced.counts.withBuilders (Nat.le_succ _) (fun file => ?_) fun builder member => ?_,
    referenced.threaded⟩
  · have weights := @Lib.Shelf.total_put_new _
      (fun object : BuilderObject => object.added.count file) heap.builders heap.nextAddress
      ⟨base, fun _ => ⟨∅, []⟩⟩ fresh
    simp only [BuilderObject.added, listing_nil, List.count_nil, Nat.add_zero] at weights
    exact weights
  · rcases Lib.Shelf.mem_put.mp member with rfl | old
    · exact Nat.lt_succ_self _
    · exact (sound.counts.builder_lt builder old).trans (Nat.lt_succ_self _)

/-- Destroying a builder drops its references to the files it was given and to its base. -/
theorem Sound.deleteBuilder (sound : heap.Sound references) {builder : Nat}
    (member : builder ∈ heap.builders.numbers)
    (dropped : ∀ other, references other = references' other +
      if other = (heap.builders.file builder).base then 1 else 0) :
    (heap.deleteBuilder builder).Sound references' := by
  set unset : VersionHeap α β := { heap with
    files := (heap.builders.file builder).added.foldl Lib.Heap.release heap.files
    builders := heap.builders.remove builder } with unsetEq
  have fewer : ∀ file, heap.fileRefs file =
      unset.fileRefs file + (heap.builders.file builder).added.count file := by
    intro file
    have weights := @Lib.Shelf.total_remove _
      (fun object : BuilderObject => object.added.count file) _ _ member
    have additions : heap.additions file = unset.additions file +
      (heap.builders.file builder).added.count file := weights.symm
    rw [fileRefs, fileRefs, additions, ← Nat.add_assoc]
    rfl
  have counts := sound.counts
  have used : unset.files.Used unset.fileRefs := counts.used.releaseAll counts.files fewer
  have unsetSound : unset.Sound references := by
    refine ⟨⟨counts.versions, counts.files.releaseAll fewer, used, fun file fileMember => ?_,
      counts.version_lt, fun other otherMember => counts.builder_lt other
        (Lib.Shelf.mem_remove.mp otherMember).2, counts.next_pos⟩, sound.threaded⟩
    have positive := used file fileMember
    refine counts.file_lt file (counts.files.mem_of_pos file ?_)
    rw [fewer]
    omega
  exact unsetSound.unrefVersion dropped

theorem additions_put {builder : Nat} (member : builder ∈ heap.builders.numbers)
    (object : BuilderObject) (file : Nat) :
    { heap with builders := heap.builders.put builder object }.additions file +
      (heap.builders.file builder).added.count file =
    heap.additions file + object.added.count file :=
  @Lib.Shelf.total_put _ (fun object : BuilderObject => object.added.count file) _ _ object member

theorem Sound.applyDeleted (sound : heap.Sound references) {builder : Nat}
    (member : builder ∈ heap.builders.numbers) (edit : VersionEdit α β) :
    (heap.applyDeleted builder edit).Sound references := by
  refine ⟨sound.counts.withBuilders le_rfl (fun file => ?_) fun other otherMember => ?_,
    sound.threaded⟩
  · have exchanged := additions_put member
      { heap.builders.file builder with
        levels := fun level =>
          { (heap.builders.file builder).levels level with
            deletedFiles := ((heap.builders.file builder).levels level).deletedFiles ∪
              edit.deletedFilesAt level } } file
    exact Nat.add_right_cancel exchanged
  · rcases Lib.Shelf.mem_put.mp otherMember with rfl | old
    · exact sound.counts.builder_lt other member
    · exact sound.counts.builder_lt other old

/-! ### New files -/

/-- What the files of a list that go to one level are told apart by. -/
def newKeys (news : List (Nat × FileMetaData α β)) (level : Nat) : List (InternalKey α × Nat) :=
  (news.filter fun new => new.1 = level).map fun new => setKey new.2

theorem bySmallestKey_of_setKey_ne [LinearOrder α] {first second : FileMetaData α β}
    (different : setKey first ≠ setKey second) :
    bySmallestKey first second = true ∨ bySmallestKey second first = true := by
  by_cases same : first.smallest = second.smallest
  · refine bySmallestKey_total fun sameNumber => different ?_
    rw [setKey, setKey, same, sameNumber]
  · rcases lt_or_gt_of_ne same with less | greater
    · exact Or.inl (by simp [bySmallestKey, same, less])
    · exact Or.inr (by simp [bySmallestKey, Ne.symm same, greater])

theorem setLevel_levels (object : BuilderObject) (level : Nat) (state : LevelRefs) (index : Nat) :
    (object.setLevel level state).levels index =
      if index = level then state else object.levels index :=
  Function.update_apply _ _ _ _

theorem setLevel_added (object : BuilderObject) {level : Nat} (inRange : level < Config.kNumLevels)
    (state : LevelRefs) (file : Nat) :
    (object.setLevel level state).added.count file + (object.levels level).addedFiles.count file =
      object.added.count file + state.addedFiles.count file := by
  have levels : (fun index => ((object.setLevel level state).levels index).addedFiles) =
      Function.update (fun index => (object.levels index).addedFiles) level state.addedFiles := by
    funext index
    rw [setLevel_levels, Function.update_apply]
    split
    · rfl
    · rfl
  rw [BuilderObject.added, levels]
  exact listing_update inRange _ _

/-- What a builder was given is referenced. -/
theorem fileRefs_pos_of_added {builder level file : Nat} (member : builder ∈ heap.builders.numbers)
    (inRange : level < Config.kNumLevels)
    (added : file ∈ ((heap.builders.file builder).levels level).addedFiles) :
    0 < heap.fileRefs file := by
  have counted : 0 < (heap.builders.file builder).added.count file :=
    List.count_pos_iff.mpr (mem_listing inRange added)
  have weight : (heap.builders.file builder).added.count file ≤ heap.additions file :=
    @Lib.Shelf.weight_le_total _ (fun object : BuilderObject => object.added.count file) _ _ member
  exact counted.trans_le (weight.trans (Nat.le_add_left _ _))

/-- The objects in the sets of a builder exist. -/
theorem Counts.mem_of_added (counts : heap.Counts references) {builder level file : Nat}
    (member : builder ∈ heap.builders.numbers) (inRange : level < Config.kNumLevels)
    (added : file ∈ ((heap.builders.file builder).levels level).addedFiles) :
    file ∈ heap.files.numbers :=
  counts.files.mem_of_pos file (fileRefs_pos_of_added member inRange added)

theorem Counts.fresh_file (counts : heap.Counts references) :
    heap.nextAddress ∉ heap.files.numbers :=
  fun member => lt_irrefl _ (counts.file_lt _ member)

/-- The files after one was created. -/
def withFile (heap : VersionHeap α β) (file : FileMetaData α β) : Lib.Heap (FileMetaData α β) :=
  heap.files.put heap.nextAddress ⟨1, preparedFile file⟩

theorem withFile_value_new (heap : VersionHeap α β) (file : FileMetaData α β) :
    (heap.withFile file).value heap.nextAddress = preparedFile file := by
  rw [Lib.Heap.value, withFile, Lib.Shelf.put_file_self]

theorem Counts.withFile_value (counts : heap.Counts references) (file : FileMetaData α β)
    {other : Nat} (member : other ∈ heap.files.numbers) :
    (heap.withFile file).value other = heap.files.value other := by
  rw [Lib.Heap.value, withFile,
    Lib.Shelf.put_file_of_ne _ (ne_of_mem_of_not_mem member counts.fresh_file)]
  rfl

/-- An object whose key is new at its level is inserted. -/
theorem Counts.insert_perm [LinearOrder α] (counts : heap.Counts references) {builder level : Nat}
    (member : builder ∈ heap.builders.numbers) (inRange : level < Config.kNumLevels)
    {file : FileMetaData α β} (isNew : setKey file ∉ heap.addedKeys builder level) :
    (((heap.builders.file builder).levels level).insert (heap.withFile file) heap.nextAddress
      file.number).addedFiles.Perm
      (heap.nextAddress :: ((heap.builders.file builder).levels level).addedFiles) := by
  have comparable : ∀ other ∈ ((heap.builders.file builder).levels level).addedFiles,
      objectLess (heap.withFile file) heap.nextAddress other = true ∨
        objectLess (heap.withFile file) other heap.nextAddress = true := by
    intro other added
    have otherMember := counts.mem_of_added member inRange added
    rw [objectLess, objectLess, withFile_value_new, counts.withFile_value file otherMember]
    refine bySmallestKey_of_setKey_ne fun same => isNew ?_
    exact List.mem_map.mpr ⟨other, added, same.symm⟩
  rcases Lib.setInsert_perm (objectLess (heap.withFile file)) heap.nextAddress _ with
    perm | unchanged
  · exact perm
  · have isMember := Lib.mem_setInsert_self (objectLess (heap.withFile file)) comparable
    rw [unchanged] at isMember
    exact absurd (counts.mem_of_added member inRange isMember) counts.fresh_file

/-- A file whose key is new at its level is inserted, with the one reference it starts with. -/
theorem Sound.applyNew [LinearOrder α] (sound : heap.Sound references) {builder level : Nat}
    (member : builder ∈ heap.builders.numbers) (inRange : level < Config.kNumLevels)
    {file : FileMetaData α β} (isNew : setKey file ∉ heap.addedKeys builder level) :
    (heap.applyNew builder (level, file)).Sound references := by
  have counts := sound.counts
  have inserted := counts.insert_perm member inRange isNew
  have unreferenced : heap.fileRefs heap.nextAddress = 0 :=
    Nat.eq_zero_of_not_pos fun held => counts.fresh_file (counts.files.mem_of_pos _ held)
  have fileRefs : ∀ other, (heap.applyNew builder (level, file)).fileRefs other =
      heap.fileRefs other + if other = heap.nextAddress then 1 else 0 := by
    intro other
    have exchanged : (heap.applyNew builder (level, file)).additions other + _ = _ :=
      additions_put member ((heap.builders.file builder).setLevel level
        (((heap.builders.file builder).levels level).insert (heap.withFile file) heap.nextAddress
          file.number)) other
    have listed := setLevel_added (heap.builders.file builder) inRange
      (((heap.builders.file builder).levels level).insert (heap.withFile file) heap.nextAddress
        file.number) other
    rw [inserted.count_eq, Lib.Heap.count_cons] at listed
    have more : (heap.applyNew builder (level, file)).additions other =
        heap.additions other + if other = heap.nextAddress then 1 else 0 := by omega
    exact (congrArg (heap.listings other + ·) more).trans (Nat.add_assoc _ _ _).symm
  refine ⟨⟨counts.versions, ?_, ?_, ?_, ?_, ?_, Nat.succ_pos _⟩, sound.threaded⟩
  · refine counts.files.put _ ?_ fun other different => ?_
    · rw [fileRefs, unreferenced, if_pos rfl]
      rfl
    · rw [fileRefs, if_neg different, Nat.add_zero]
  · intro other otherMember
    rw [fileRefs]
    rcases Lib.Shelf.mem_put.mp otherMember with rfl | old
    · rw [if_pos rfl]
      exact Nat.succ_pos _
    · exact Nat.add_pos_left (counts.used other old) _
  · intro other otherMember
    rcases Lib.Shelf.mem_put.mp otherMember with rfl | old
    · exact Nat.lt_succ_self _
    · exact (counts.file_lt other old).trans (Nat.lt_succ_self _)
  · exact fun other otherMember => (counts.version_lt other otherMember).trans (Nat.lt_succ_self _)
  · intro other otherMember
    rcases Lib.Shelf.mem_put.mp otherMember with rfl | old
    · exact (counts.builder_lt other member).trans (Nat.lt_succ_self _)
    · exact (counts.builder_lt other old).trans (Nat.lt_succ_self _)

theorem addedKeys_applyNew [LinearOrder α] (counts : heap.Counts references) {builder level : Nat}
    (member : builder ∈ heap.builders.numbers) (inRange : level < Config.kNumLevels)
    {file : FileMetaData α β} (isNew : setKey file ∉ heap.addedKeys builder level)
    {other : Nat} (otherRange : other < Config.kNumLevels) :
    ((heap.applyNew builder (level, file)).addedKeys builder other).Perm
      (heap.addedKeys builder other ++ newKeys [(level, file)] other) := by
  have after : (heap.applyNew builder (level, file)).addedKeys builder other =
      ((((heap.builders.file builder).setLevel level
        (((heap.builders.file builder).levels level).insert (heap.withFile file) heap.nextAddress
          file.number)).levels other).addedFiles.map
        fun number => setKey ((heap.withFile file).value number)) := by
    rw [addedKeys, VersionHeap.applyNew, Lib.Shelf.put_file_self]
    rfl
  have old : ∀ index < Config.kNumLevels,
      (((heap.builders.file builder).levels index).addedFiles.map fun number =>
        setKey ((heap.withFile file).value number)) = heap.addedKeys builder index := by
    intro index indexRange
    refine List.map_congr_left fun number added => ?_
    rw [counts.withFile_value file (counts.mem_of_added member indexRange added)]
  rw [after, newKeys, setLevel_levels]
  by_cases same : other = level
  · rw [if_pos same, same, List.filter_cons_of_pos (by simp), List.filter_nil]
    refine ((counts.insert_perm member inRange isNew).map _).trans ?_
    rw [List.map_cons, withFile_value_new, old level inRange]
    exact (List.perm_append_singleton _ _).symm
  · rw [if_neg same, old other otherRange, List.filter_cons_of_neg]
    · simp
    · simpa using Ne.symm same

/-- What an operation of a builder leaves alone. -/
structure SameOwners (heap' heap : VersionHeap α β) : Prop where
  current : heap'.current = heap.current
  clients : heap'.clients = heap.clients
  builders : heap'.builders.numbers = heap.builders.numbers
  base : ∀ builder ∈ heap.builders.numbers,
    (heap'.builders.file builder).base = (heap.builders.file builder).base

theorem SameOwners.versionRefs (same : SameOwners heap' heap) :
    heap'.versionRefs = heap.versionRefs := by
  funext version
  have bases : (heap'.builders.total fun object => if version = object.base then 1 else 0) =
      heap.builders.total fun object => if version = object.base then 1 else 0 := by
    rw [Lib.Shelf.total, Lib.Shelf.total, same.builders]
    exact Finset.sum_congr rfl fun builder member => by rw [same.base builder member]
  rw [VersionHeap.versionRefs, VersionHeap.versionRefs, bases, same.current, same.clients]

theorem SameOwners.trans {heap'' : VersionHeap α β} (second : SameOwners heap'' heap')
    (first : SameOwners heap' heap) : SameOwners heap'' heap :=
  ⟨second.current.trans first.current, second.clients.trans first.clients,
    second.builders.trans first.builders, fun builder member =>
      (second.base builder (first.builders ▸ member)).trans (first.base builder member)⟩

/-- A builder that keeps its base is replaced. -/
theorem sameOwners_put {builder : Nat} (member : builder ∈ heap.builders.numbers)
    {object : BuilderObject} (builders : heap'.builders = heap.builders.put builder object)
    (base : object.base = (heap.builders.file builder).base)
    (current : heap'.current = heap.current) (clients : heap'.clients = heap.clients) :
    SameOwners heap' heap := by
  refine ⟨current, clients, ?_, fun other otherMember => ?_⟩
  · rw [builders]
    exact Finset.insert_eq_of_mem member
  · rw [builders]
    by_cases same : other = builder
    · rw [same, Lib.Shelf.put_file_self, base]
    · rw [Lib.Shelf.put_file_of_ne _ same]

/-- The new files of an edit, one after the other. -/
theorem Sound.applyAll [LinearOrder α] {builder : Nat} {news : List (Nat × FileMetaData α β)}
    (sound : heap.Sound references) (member : builder ∈ heap.builders.numbers)
    (inRange : ∀ new ∈ news, new.1 < Config.kNumLevels)
    (once : ∀ level < Config.kNumLevels,
      (heap.addedKeys builder level ++ newKeys news level).Nodup) :
    (news.foldl (VersionHeap.applyNew builder) heap).Sound references ∧
      SameOwners (news.foldl (VersionHeap.applyNew builder) heap) heap := by
  induction news generalizing heap with
  | nil => exact ⟨sound, rfl, rfl, rfl, fun _ _ => rfl⟩
  | cons new rest inductionHypothesis =>
    obtain ⟨level, file⟩ := new
    have levelRange : level < Config.kNumLevels := inRange _ List.mem_cons_self
    have keys : ∀ index, newKeys ((level, file) :: rest) index =
        newKeys [(level, file)] index ++ newKeys rest index := by
      intro index
      rw [newKeys, newKeys, newKeys, ← List.map_append, ← List.filter_append, List.singleton_append]
    have isNew : setKey file ∉ heap.addedKeys builder level := by
      intro old
      have distinct := once level levelRange
      rw [keys, List.nodup_append] at distinct
      refine distinct.2.2 _ old _ (List.mem_append_left _ ?_) rfl
      simp [newKeys]
    have kept := sound.applyNew member levelRange isNew
    have owners : SameOwners (heap.applyNew builder (level, file)) heap :=
      sameOwners_put member rfl rfl rfl rfl
    obtain ⟨restSound, restOwners⟩ := inductionHypothesis kept (owners.builders ▸ member)
      (fun new inRest => inRange new (List.mem_cons_of_mem _ inRest)) fun index indexRange => by
        have perm := addedKeys_applyNew sound.counts member levelRange isNew indexRange
        rw [(perm.append_right _).nodup_iff, List.append_assoc, ← keys]
        exact once index indexRange
    exact ⟨restSound, restOwners.trans owners⟩

theorem Sound.apply [LinearOrder α] {builder : Nat} {edit : VersionEdit α β}
    (sound : heap.Sound references)
    (member : builder ∈ heap.builders.numbers)
    (inRange : ∀ new ∈ edit.newFiles, new.1 < Config.kNumLevels)
    (once : ¬heap.AddsTwice (.apply builder edit)) :
    (heap.apply builder edit).Sound references ∧ SameOwners (heap.apply builder edit) heap := by
  have owners : SameOwners (heap.applyDeleted builder edit) heap :=
    sameOwners_put member rfl rfl rfl rfl
  have addedKeys : ∀ level, (heap.applyDeleted builder edit).addedKeys builder level =
      heap.addedKeys builder level := by
    intro level
    rw [VersionHeap.addedKeys, VersionHeap.applyDeleted, Lib.Shelf.put_file_self]
    rfl
  obtain ⟨applied, same⟩ := (sound.applyDeleted member edit).applyAll (owners.builders ▸ member)
    inRange fun level levelRange => by
      rw [addedKeys]
      have distinct := not_exists.mp once level
      rw [not_and, not_not] at distinct
      have keys : (edit.newFilesAt level).map setKey = newKeys edit.newFiles level := by
        rw [VersionEdit.newFilesAt, List.map_map]
        rfl
      exact keys ▸ distinct levelRange
  exact ⟨applied, same.trans owners⟩

/-! ### Saving -/

/-- What saving keeps of a heap. -/
structure Saved (heap' heap : VersionHeap α β) (references : Nat → Nat) : Prop where
  sound : heap'.Sound references
  owners : SameOwners heap' heap
  numbers : heap'.versions.numbers = heap.versions.numbers
  fileRefs_le : ∀ file, heap.fileRefs file ≤ heap'.fileRefs file

theorem Saved.trans {heap'' : VersionHeap α β} (second : Saved heap'' heap' references)
    (first : Saved heap' heap references) : Saved heap'' heap references :=
  ⟨second.sound, second.owners.trans first.owners, second.numbers.trans first.numbers,
    fun file => (first.fileRefs_le file).trans (second.fileRefs_le file)⟩

theorem Sound.saved (sound : heap.Sound references) : Saved heap heap references :=
  ⟨sound, ⟨rfl, rfl, rfl, fun _ _ => rfl⟩, rfl, fun _ => le_rfl⟩

/-- A file somebody refers to is listed once more. -/
theorem Sound.maybeAddFile (sound : heap.Sound references) {builder level file : Nat}
    (member : version ∈ heap.versions.numbers) (inRange : level < Config.kNumLevels)
    (held : 0 < heap.fileRefs file) :
    Saved (heap.maybeAddFile builder version level file) heap references := by
  rw [VersionHeap.maybeAddFile]
  split
  · exact sound.saved
  · have counts := sound.counts
    set files := heap.versions.value version with filesEq
    set listed : VersionHeap α β := { heap with
      files := heap.files.ref file
      versions := heap.versions.put version
        ⟨heap.versions.refs version, Function.update files level (files level ++ [file])⟩ }
      with listedEq
    have numbers : listed.versions.numbers = heap.versions.numbers := Finset.insert_eq_of_mem member
    have fileMember := counts.files.mem_of_pos file held
    have fileNumbers : listed.files.numbers = heap.files.numbers :=
      Finset.insert_eq_of_mem fileMember
    have fileRefs : ∀ other, listed.fileRefs other =
        heap.fileRefs other + if other = file then 1 else 0 := by
      intro other
      have exchanged : listed.listings other + (listing files).count other =
          heap.listings other +
            (listing (Function.update files level (files level ++ [file]))).count other :=
        @Lib.Shelf.total_put _ (fun object : Lib.Counted (Nat → List Nat) =>
          (listing object.value).count other) heap.versions version
          ⟨heap.versions.refs version, Function.update files level (files level ++ [file])⟩ member
      have pushed := @listing_update files level inRange (files level ++ [file]) other
      rw [List.count_append, Lib.Heap.count_cons, List.count_nil] at pushed
      have additions : listed.additions other = heap.additions other := rfl
      rw [VersionHeap.fileRefs, VersionHeap.fileRefs, additions]
      omega
    have refs := counts.versions.refs_eq version member
    refine ⟨⟨⟨counts.versions.put _ refs.symm fun _ _ => rfl, counts.files.ref fileMember fileRefs,
      fun other otherMember => ?_, fun other otherMember => ?_, fun other otherMember => ?_,
      counts.builder_lt, counts.next_pos⟩, numbers ▸ sound.threaded⟩,
      ⟨rfl, rfl, rfl, fun _ _ => rfl⟩, numbers, fun other => ?_⟩
    · rw [fileNumbers] at otherMember
      rw [fileRefs]
      exact Nat.add_pos_left (counts.used other otherMember) _
    · exact counts.file_lt other (fileNumbers ▸ otherMember)
    · exact counts.version_lt other (numbers ▸ otherMember)
    · rw [fileRefs]
      exact Nat.le_add_right _ _

theorem Sound.maybeAddFiles (sound : heap.Sound references) {builder level : Nat}
    {files : List Nat} (member : version ∈ heap.versions.numbers)
    (inRange : level < Config.kNumLevels) (held : ∀ file ∈ files, 0 < heap.fileRefs file) :
    Saved (files.foldl (VersionHeap.maybeAddFile builder version level) heap) heap references := by
  induction files generalizing heap with
  | nil => exact sound.saved
  | cons file rest inductionHypothesis =>
    have first : Saved (heap.maybeAddFile builder version level file) heap references :=
      sound.maybeAddFile member inRange (held file List.mem_cons_self)
    exact (inductionHypothesis first.sound (first.numbers ▸ member) fun other inRest =>
      (held other (List.mem_cons_of_mem _ inRest)).trans_le (first.fileRefs_le other)).trans first

/-- What a level of a version that exists lists is referenced. -/
theorem fileRefs_pos_of_listed {level file : Nat} (member : version ∈ heap.versions.numbers)
    (inRange : level < Config.kNumLevels) (listed : file ∈ heap.versions.value version level) :
    0 < heap.fileRefs file := by
  have counted : 0 < (listing (heap.versions.value version)).count file :=
    List.count_pos_iff.mpr (mem_listing inRange listed)
  have weight : (listing (heap.versions.value version)).count file ≤ heap.listings file :=
    @Lib.Shelf.weight_le_total _ (fun object : Lib.Counted (Nat → List Nat) =>
      (listing object.value).count file) _ _ member
  exact counted.trans_le (weight.trans (Nat.le_add_right _ _))

theorem Sound.saveLevelTo [LinearOrder α] (sound : heap.Sound references) {builder level : Nat}
    (builderMember : builder ∈ heap.builders.numbers)
    (base : (heap.builders.file builder).base ∈ heap.versions.numbers)
    (member : version ∈ heap.versions.numbers) (inRange : level < Config.kNumLevels) :
    Saved (heap.saveLevelTo builder version level) heap references := by
  refine sound.maybeAddFiles member inRange fun file merged => ?_
  rcases List.mem_append.mp ((Lib.mergeInto_perm _ _ _).mem_iff.mp merged) with listed | added
  · exact fileRefs_pos_of_listed base inRange listed
  · exact fileRefs_pos_of_added builderMember inRange added

theorem Sound.saveLevels [LinearOrder α] {builder : Nat} {levels : List Nat}
    (sound : heap.Sound references)
    (builderMember : builder ∈ heap.builders.numbers)
    (base : (heap.builders.file builder).base ∈ heap.versions.numbers)
    (member : version ∈ heap.versions.numbers)
    (inRange : ∀ level ∈ levels, level < Config.kNumLevels) :
    Saved (levels.foldl (VersionHeap.saveLevelTo builder version) heap) heap references := by
  induction levels generalizing heap with
  | nil => exact sound.saved
  | cons level rest inductionHypothesis =>
    have first := sound.saveLevelTo builderMember base member (inRange level List.mem_cons_self)
    have restBase : ((heap.saveLevelTo builder version level).builders.file builder).base ∈
        (heap.saveLevelTo builder version level).versions.numbers := by
      rw [first.owners.base builder builderMember, first.numbers]
      exact base
    exact (inductionHypothesis first.sound (first.owners.builders ▸ builderMember) restBase
      (first.numbers ▸ member) fun other inRest =>
        inRange other (List.mem_cons_of_mem _ inRest)).trans first

theorem Sound.saveTo [LinearOrder α] (sound : heap.Sound references) {builder : Nat}
    (builderMember : builder ∈ heap.builders.numbers)
    (base : (heap.builders.file builder).base ∈ heap.versions.numbers)
    (member : version ∈ heap.versions.numbers) :
    Saved (heap.saveTo builder version) heap references :=
  sound.saveLevels builderMember base member fun _ inLevels => List.mem_range.mp inLevels

/-! ### Runs -/

/-- The invariant of a heap: its counts are in balance with the references it holds. -/
abbrev Balanced (heap : VersionHeap α β) : Prop := heap.Sound heap.versionRefs

theorem versionRefs_base_pos {builder : Nat} (member : builder ∈ heap.builders.numbers) :
    0 < heap.versionRefs (heap.builders.file builder).base := by
  have weight := @Lib.Shelf.weight_le_total _
    (fun object : BuilderObject => if (heap.builders.file builder).base = object.base then 1 else 0)
    _ _ member
  rw [if_pos rfl] at weight
  exact weight.trans (Nat.le_add_left _ _)

theorem Sound.refs_pos_iff (sound : heap.Sound references)
    (member : version ∈ heap.versions.numbers) :
    0 < heap.versions.refs version ↔ 0 < references version := by
  rw [sound.counts.versions.refs_eq version member, Int.natCast_pos]

theorem balanced_new [Inhabited α] : (new : VersionHeap α β).Balanced := by
  have refs : ∀ other, (new : VersionHeap α β).versionRefs other = if other = 1 then 1 else 0 :=
    fun other => rfl
  have none : ∀ file, (new : VersionHeap α β).fileRefs file = 0 := by
    intro file
    have listings : (new : VersionHeap α β).listings file = 0 := by
      rw [VersionHeap.listings, new, Lib.Shelf.total_put_new (Finset.notMem_empty 1), listing_nil]
      rfl
    have additions : (new : VersionHeap α β).additions file = 0 := rfl
    rw [fileRefs, listings, additions]
  have apart : ∀ version ∈ (new : VersionHeap α β).versions.numbers, version = 1 := by
    intro version member
    exact (Lib.Shelf.mem_put.mp member).resolve_right (Finset.notMem_empty version)
  have empty : Threaded (⟨fun node => node, fun node => node⟩ : Lib.Links Nat) {1} fun _ => 0 := by
    refine ⟨fun version member => ?_, ⟨[], ⟨List.nodup_singleton 0, ?_⟩, fun version => ?_⟩,
      fun version _ _ => ⟨rfl, rfl⟩⟩
    · rw [Finset.mem_singleton.mp member]
      exact Nat.one_pos
    · exact List.isChain_cons_cons.mpr ⟨⟨rfl, rfl⟩, List.isChain_singleton 0⟩
    · simp
  refine ⟨⟨⟨fun version member => ?_, fun version positive => ?_⟩,
    ⟨?_, fun file positive => ?_⟩, ?_, ?_, fun version member => ?_, ?_, Nat.two_pos⟩, ?_⟩
  · rw [apart version member]
    rfl
  · rw [refs] at positive
    split at positive
    · rename_i isOne
      exact Lib.Shelf.mem_put.mpr (Or.inl isOne)
    · exact absurd positive (lt_irrefl 0)
  · exact fun file member => absurd member (Finset.notMem_empty file)
  · rw [none] at positive
    exact absurd positive (lt_irrefl 0)
  · exact fun file member => absurd member (Finset.notMem_empty file)
  · exact fun file member => absurd member (Finset.notMem_empty file)
  · rw [apart version member]
    exact Nat.one_lt_two
  · exact fun builder member => absurd member (Finset.notMem_empty builder)
  · exact empty.append (Finset.mem_singleton_self 1) rfl fun other => by rw [refs, Nat.zero_add]

theorem unrefVersion_owners (heap : VersionHeap α β) (version : Nat) :
    (heap.unrefVersion version).current = heap.current ∧
      (heap.unrefVersion version).clients = heap.clients ∧
      (heap.unrefVersion version).builders = heap.builders := by
  rw [unrefVersion]
  split
  · exact ⟨rfl, rfl, rfl⟩
  · exact ⟨rfl, rfl, rfl⟩

/-- A version that is not in the list has no references. -/
theorem Sound.unused (sound : heap.Sound references) (unlisted : heap.Unlisted version) :
    references version = 0 := by
  have refs := sound.counts.versions.refs_eq version unlisted.1
  rw [unlisted.2] at refs
  exact_mod_cast refs.symm

theorem versionRefs_newBuilder (sound : heap.Sound references) (base other : Nat) :
    (heap.newBuilder base).versionRefs other =
      heap.versionRefs other + if other = base then 1 else 0 := by
  have fresh : heap.nextAddress ∉ heap.builders.numbers := fun member =>
    lt_irrefl _ (sound.counts.builder_lt _ member)
  have weights := @Lib.Shelf.total_put_new _
    (fun object : BuilderObject => if other = object.base then 1 else 0) heap.builders
    heap.nextAddress ⟨base, fun _ => ⟨∅, []⟩⟩ fresh
  exact (congrArg (((if other = heap.current then 1 else 0) + heap.clients.count other) + ·)
    weights).trans (Nat.add_assoc _ _ _).symm

theorem versionRefs_deleteBuilder {builder : Nat} (member : builder ∈ heap.builders.numbers)
    (other : Nat) : heap.versionRefs other = (heap.deleteBuilder builder).versionRefs other +
      if other = (heap.builders.file builder).base then 1 else 0 := by
  have weights := @Lib.Shelf.total_remove _
    (fun object : BuilderObject => if other = object.base then 1 else 0) _ _ member
  obtain ⟨current, clients, builders⟩ := unrefVersion_owners
    { heap with
      files := (heap.builders.file builder).added.foldl Lib.Heap.release heap.files
      builders := heap.builders.remove builder } (heap.builders.file builder).base
  rw [deleteBuilder, versionRefs, versionRefs, current, clients, builders, ← weights]
  exact (Nat.add_assoc _ _ _).symm

/-- An operation that does not give a builder the same file twice keeps the balance. -/
theorem balanced_step [LinearOrder α] {action : RefAction α β} (balanced : heap.Balanced)
    (once : ¬heap.AddsTwice action) (taken : heap.step action = some heap') : heap'.Balanced := by
  cases action with
  | newVersion =>
    obtain rfl := Option.some.inj taken
    exact balanced.newVersion
  | newBuilder base =>
    obtain ⟨live, rfl⟩ := Lib.of_guard taken
    have held := (balanced.refs_pos_iff live.1).mp live.2
    exact balanced.newBuilder held (versionRefs_newBuilder balanced base)
  | apply builder edit =>
    obtain ⟨⟨member, inRange⟩, rfl⟩ := Lib.of_guard taken
    obtain ⟨sound, owners⟩ := Sound.apply balanced member inRange once
    exact sound.congr fun other => congrFun owners.versionRefs other
  | saveTo builder version =>
    obtain ⟨⟨member, unlisted⟩, rfl⟩ := Lib.of_guard taken
    have base := balanced.counts.versions.mem_of_pos _ (versionRefs_base_pos member)
    have saved := balanced.saveTo member base unlisted.1
    exact saved.sound.congr fun other => congrFun saved.owners.versionRefs other
  | deleteBuilder builder =>
    obtain ⟨member, rfl⟩ := Lib.of_guard taken
    exact balanced.deleteBuilder member (versionRefs_deleteBuilder member)
  | appendVersion version =>
    obtain ⟨unlisted, rfl⟩ := Lib.of_guard taken
    obtain ⟨_, clients, builders⟩ := unrefVersion_owners heap heap.current
    let middle : Nat → Nat := fun other => heap.clients.count other +
      heap.builders.total fun object => if other = object.base then 1 else 0
    have dropped : ∀ other, heap.versionRefs other =
        middle other + if other = heap.current then 1 else 0 := by
      intro other
      simp only [versionRefs, middle]
      omega
    refine balanced.appendVersion unlisted dropped fun other => ?_
    · have owned : (heap.appendVersion version).versionRefs other =
          (if other = version then 1 else 0) +
            (heap.unrefVersion heap.current).clients.count other +
            (heap.unrefVersion heap.current).builders.total fun object =>
              if other = object.base then 1 else 0 := rfl
      rw [owned, clients, builders]
      simp only [middle]
      omega
  | deleteVersion version =>
    obtain ⟨unlisted, rfl⟩ := Lib.of_guard taken
    exact ⟨balanced.counts.deleteVersion unlisted.1 (balanced.unused unlisted),
      balanced.threaded.remove unlisted.1 fun _ _ => rfl⟩
  | ref version =>
    obtain ⟨live, rfl⟩ := Lib.of_guard taken
    have held := (balanced.refs_pos_iff live.1).mp live.2
    have taken : ∀ other, { heap.refVersion version with
        clients := version :: heap.clients }.versionRefs other =
          heap.versionRefs other + if other = version then 1 else 0 := by
      intro other
      have owned : { heap.refVersion version with
        clients := version :: heap.clients }.versionRefs other =
          (if other = heap.current then 1 else 0) + (version :: heap.clients).count other +
            heap.builders.total fun object => if other = object.base then 1 else 0 := rfl
      rw [owned, versionRefs, Lib.Heap.count_cons]
      omega
    have sound := balanced.refVersion held taken
    exact ⟨{ sound.counts with }, sound.threaded⟩
  | unref version =>
    obtain ⟨member, rfl⟩ := Lib.of_guard taken
    obtain ⟨current, _, builders⟩ := unrefVersion_owners heap version
    have dropped : ∀ other, heap.versionRefs other = { heap.unrefVersion version with
        clients := heap.clients.erase version }.versionRefs other +
          if other = version then 1 else 0 := by
      intro other
      have owned : { heap.unrefVersion version with
        clients := heap.clients.erase version }.versionRefs other =
          (if other = (heap.unrefVersion version).current then 1 else 0) +
            (heap.clients.erase version).count other +
            (heap.unrefVersion version).builders.total fun object =>
              if other = object.base then 1 else 0 := rfl
      have held : heap.clients.count other =
          (heap.clients.erase version).count other + if other = version then 1 else 0 := by
        rw [(List.perm_cons_erase member).count_eq, Lib.Heap.count_cons]
      rw [owned, versionRefs, current, builders, held]
      omega
    have sound := balanced.unrefVersion dropped
    exact ⟨{ sound.counts with }, sound.threaded⟩

/-- Over every run in which no builder is given the same file twice at one level, the counts are
exact whenever no builder is at work. -/
theorem refs_exact [LinearOrder α] [Inhabited α]
    (reached : Lib.Reachable (@step α β _) (fun heap action => ¬heap.AddsTwice action) new
      heap) (quiet : heap.Quiet) : heap.Exact := by
  have balanced : heap.Balanced := reached.invariant balanced_new
    fun _ _ _ balanced once taken => balanced_step balanced once taken
  have additions : ∀ file, heap.additions file = 0 := by
    intro file
    rw [VersionHeap.additions, Lib.Shelf.total, quiet, Finset.sum_empty]
  have fileRefs : ∀ file, heap.fileRefs file = heap.listings file := by
    intro file
    rw [VersionHeap.fileRefs, additions, Nat.add_zero]
  obtain ⟨members, ring, listed⟩ := balanced.threaded.ring
  refine ⟨fun file member => ?_, fun file => ⟨fun member => ?_, fun positive => ?_⟩,
    members, ring, fun version => ?_⟩
  · rw [← fileRefs]
    exact balanced.counts.files.refs_eq file member
  · rw [← fileRefs]
    exact balanced.counts.used file member
  · rw [← fileRefs] at positive
    exact balanced.counts.files.mem_of_pos file positive
  · rw [listed]
    exact and_congr_right fun member => (balanced.refs_pos_iff member).symm

instance [LinearOrder α] (heap : VersionHeap α β) :
    (action : RefAction α β) → Decidable (heap.AddsTwice action)
  | .apply builder edit => inferInstanceAs (Decidable (∃ level < Config.kNumLevels,
      ¬(heap.addedKeys builder level ++ (edit.newFilesAt level).map setKey).Nodup))
  | .newVersion | .newBuilder _ | .saveTo _ _ | .deleteBuilder _ | .appendVersion _
  | .deleteVersion _ | .ref _ | .unref _ => inferInstanceAs (Decidable False)

/-- A version is made of one new file, read by a client and replaced by an empty one; a second try
to replace it fails and its version is deleted. -/
def installRun : List (RefAction Nat Unit) :=
  let file : FileMetaData Nat Unit := ⟨7, 100, 0, ⟨1, 256⟩, ⟨2, 256⟩, []⟩
  [.newVersion, .newBuilder 1, .apply 3 (VersionEdit.addFile {} 0 file), .saveTo 3 2,
    .deleteBuilder 3, .appendVersion 2, .ref 2,
    .newVersion, .newBuilder 2, .saveTo 6 5, .deleteBuilder 6, .deleteVersion 5,
    .newVersion, .newBuilder 2, .apply 8 (VersionEdit.deleteFile {} 0 7), .saveTo 8 7,
    .deleteBuilder 8, .appendVersion 7]

theorem refs_exact_install : ∃ heap : VersionHeap Nat Unit,
    heap.files.numbers = {4} ∧ heap.versions.numbers = {2, 7} ∧ heap.Exact := by
  obtain ⟨heap, reached, shown⟩ := Lib.exists_of_run
    (show (Lib.run (@step Nat Unit _) (fun heap action => ¬heap.AddsTwice action) new
      installRun).any (fun heap => heap.builders.numbers = ∅ ∧ heap.files.numbers = {4} ∧
        heap.versions.numbers = {2, 7}) = true by decide +kernel)
  obtain ⟨quiet, files, versions⟩ := of_decide_eq_true shown
  exact ⟨heap, files, versions, refs_exact reached quiet⟩

/-- An edit that adds one file twice to level 0. -/
def doubledRun : List (RefAction Nat Unit) :=
  let file : FileMetaData Nat Unit := ⟨7, 100, 0, ⟨1, 256⟩, ⟨2, 256⟩, []⟩
  [.newVersion, .newBuilder 1, .apply 3 ((VersionEdit.addFile {} 0 file).addFile 0 file),
    .saveTo 3 2, .deleteBuilder 3, .appendVersion 2]

/-- The second object of a file that is added twice is referenced by nothing and never freed. -/
theorem refs_inexact : ∃ heap : VersionHeap Nat Unit,
    Lib.Reachable (@step Nat Unit _) (fun _ _ => True) new heap ∧ heap.Quiet ∧ ¬heap.Exact := by
  obtain ⟨heap, reached, shown⟩ := Lib.exists_of_run
    (show (Lib.run (@step Nat Unit _) (fun _ _ => True) new doubledRun).any
      (fun heap => heap.builders.numbers = ∅ ∧ 5 ∈ heap.files.numbers ∧ heap.listings 5 = 0) = true
      by decide +kernel)
  obtain ⟨quiet, leaked, unlisted⟩ := of_decide_eq_true shown
  refine ⟨heap, reached, quiet, fun exact => ?_⟩
  have listed := (exact.mem_iff 5).mp leaked
  rw [unlisted] at listed
  exact lt_irrefl 0 listed

end VersionHeap

end LevelDb
