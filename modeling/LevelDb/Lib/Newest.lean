/-
This file develops what a multi-version store is for, in its own terms. A store is a set of
stamped versions of keys. A reader at a snapshot is served the newest version of its key
whose stamp is at most the snapshot. When the store is split into layers such that, key by
key, every layer is newer than the ones after it, the first layer that holds a visible
version holds the newest one.
-/

import Mathlib.Tactic

namespace LevelDb.Lib

variable {Version Key : Type} (key : Version → Key) (stamp : Version → Nat)

/-- `version` is the newest version of `target` in `store` with stamp at most `snapshot`. -/
def IsNewest (store : Set Version) (target : Key) (snapshot : Nat) (version : Version) : Prop :=
  version ∈ store ∧ key version = target ∧ stamp version ≤ snapshot ∧
    ∀ other ∈ store, key other = target → stamp other ≤ snapshot → stamp other ≤ stamp version

/-- No version of `target` in `store` is visible at `snapshot`. -/
def NoneVisible (store : Set Version) (target : Key) (snapshot : Nat) : Prop :=
  ∀ version ∈ store, key version = target → snapshot < stamp version

/-- Key by key, every version of the first store is newer than every version of the second. -/
def Newer (first second : Set Version) : Prop :=
  ∀ newer ∈ first, ∀ older ∈ second, key newer = key older → stamp older < stamp newer

/-- A lookup in one layer answers with the newest visible version, or says rightly that
nothing is visible. -/
structure Answers (content : Set Version) (target : Key) (snapshot : Nat)
    (answer : Option Version) : Prop where
  isNewest : ∀ version, answer = some version →
    IsNewest key stamp content target snapshot version
  noneVisible : answer = none → NoneVisible key stamp content target snapshot

variable {key stamp}

theorem Newer.mono {first second first' second' : Set Version} (newer : Newer key stamp first second)
    (firstSub : first' ⊆ first) (secondSub : second' ⊆ second) :
    Newer key stamp first' second' :=
  fun version member older olderMember same =>
    newer version (firstSub member) older (secondSub olderMember) same

/-- A version that is newest in the front layer is newest in the whole store when the front
layer is newer than the rest. -/
theorem IsNewest.union_of_newer {front rest : Set Version} {target : Key} {snapshot : Nat}
    {version : Version} (newest : IsNewest key stamp front target snapshot version)
    (newer : Newer key stamp front rest) :
    IsNewest key stamp (front ∪ rest) target snapshot version := by
  obtain ⟨member, same, visible, greatest⟩ := newest
  refine ⟨Or.inl member, same, visible, ?_⟩
  rintro other (otherMember | otherMember) otherSame otherVisible
  · exact greatest other otherMember otherSame otherVisible
  · exact le_of_lt (newer version member other otherMember (same.trans otherSame.symm))

/-- A front layer with nothing visible does not change the answer. -/
theorem isNewest_union_of_noneVisible {front rest : Set Version} {target : Key} {snapshot : Nat}
    (none : NoneVisible key stamp front target snapshot) (version : Version) :
    IsNewest key stamp (front ∪ rest) target snapshot version ↔
      IsNewest key stamp rest target snapshot version := by
  constructor
  · rintro ⟨member | member, same, visible, greatest⟩
    · exact absurd visible (not_le_of_gt (none version member same))
    · exact ⟨member, same, visible, fun other otherMember =>
        greatest other (Or.inr otherMember)⟩
  · rintro ⟨member, same, visible, greatest⟩
    refine ⟨Or.inr member, same, visible, ?_⟩
    rintro other (otherMember | otherMember) otherSame otherVisible
    · exact absurd otherVisible (not_le_of_gt (none other otherMember otherSame))
    · exact greatest other otherMember otherSame otherVisible

theorem noneVisible_union {front rest : Set Version} {target : Key} {snapshot : Nat} :
    NoneVisible key stamp (front ∪ rest) target snapshot ↔
      NoneVisible key stamp front target snapshot ∧
        NoneVisible key stamp rest target snapshot := by
  constructor
  · intro none
    exact ⟨fun version member => none version (Or.inl member),
      fun version member => none version (Or.inr member)⟩
  · rintro ⟨noneFront, noneRest⟩ version (member | member)
    · exact noneFront version member
    · exact noneRest version member

/-- A store with something visible and a store with nothing visible exclude each other. -/
theorem IsNewest.not_noneVisible {store : Set Version} {target : Key} {snapshot : Nat}
    {version : Version} (newest : IsNewest key stamp store target snapshot version) :
    ¬ NoneVisible key stamp store target snapshot :=
  fun none => absurd newest.2.2.1 (not_le_of_gt (none version newest.1 newest.2.1))

/-- Two newest versions carry the same stamp. -/
theorem IsNewest.stamp_eq {store : Set Version} {target : Key} {snapshot : Nat}
    {first second : Version} (newestFirst : IsNewest key stamp store target snapshot first)
    (newestSecond : IsNewest key stamp store target snapshot second) :
    stamp first = stamp second :=
  le_antisymm
    (newestSecond.2.2.2 first newestFirst.1 newestFirst.2.1 newestFirst.2.2.1)
    (newestFirst.2.2.2 second newestSecond.1 newestSecond.2.1 newestSecond.2.2.1)

/-- A finite store in which something is visible has a newest version. -/
theorem exists_isNewest {store : Set Version} (finite : store.Finite) {target : Key}
    {snapshot : Nat} (visible : ∃ version ∈ store, key version = target ∧ stamp version ≤ snapshot) :
    ∃ version, IsNewest key stamp store target snapshot version := by
  have finiteVisible : {version ∈ store | key version = target ∧ stamp version ≤ snapshot}.Finite :=
    finite.subset (Set.sep_subset _ _)
  obtain ⟨version, ⟨member, same, isVisible⟩, greatest⟩ :=
    Set.exists_max_image _ stamp finiteVisible visible
  exact ⟨version, member, same, isVisible, fun other otherMember otherSame otherVisible =>
    greatest other ⟨otherMember, otherSame, otherVisible⟩⟩

/-- In layers ordered by age, what is newest in the first layer with something visible is
newest in all of them. -/
theorem IsNewest.of_layers {layers : Nat → Set Version}
    (ordered : ∀ upper lower, upper < lower → Newer key stamp (layers upper) (layers lower))
    {target : Key} {snapshot level : Nat}
    (first : ∀ upper < level, NoneVisible key stamp (layers upper) target snapshot)
    {version : Version} (newest : IsNewest key stamp (layers level) target snapshot version) :
    IsNewest key stamp {version | ∃ level, version ∈ layers level} target snapshot version := by
  obtain ⟨member, same, visible, greatest⟩ := newest
  refine ⟨⟨level, member⟩, same, visible, ?_⟩
  rintro other ⟨level', otherMember⟩ otherSame otherVisible
  rcases lt_trichotomy level' level with above | rfl | below
  · exact absurd otherVisible (not_le_of_gt (first level' above other otherMember otherSame))
  · exact greatest other otherMember otherSame otherVisible
  · exact le_of_lt (ordered level level' below version member other otherMember
      (same.trans otherSame.symm))

/-- Asking the layers of a store in the order of their age and taking the first answer
answers for the whole store. -/
theorem answers_findSome {Layer : Type} {content : Layer → Set Version}
    {lookup : Layer → Option Version} {target : Key} {snapshot : Nat} {layers : List Layer}
    (answers : ∀ layer ∈ layers,
      Answers key stamp (content layer) target snapshot (lookup layer))
    (ordered : layers.Pairwise fun newer older => Newer key stamp (content newer) (content older)) :
    Answers key stamp {version | ∃ layer ∈ layers, version ∈ content layer} target snapshot
      (layers.findSome? lookup) := by
  induction layers with
  | nil =>
    refine ⟨nofun, fun _ => ?_⟩
    rintro version ⟨layer, inNone, _⟩
    exact absurd inNone List.not_mem_nil
  | cons layer rest inductionHypothesis =>
    obtain ⟨newer, restOrdered⟩ := List.pairwise_cons.mp ordered
    have front := answers layer List.mem_cons_self
    have back := inductionHypothesis
      (fun other member => answers other (List.mem_cons_of_mem _ member)) restOrdered
    have split : {version | ∃ other ∈ layer :: rest, version ∈ content other} =
        content layer ∪ {version | ∃ other ∈ rest, version ∈ content other} := by
      ext version
      simp only [List.mem_cons, exists_eq_or_imp, Set.mem_ofPred_eq, Set.mem_union]
    rw [split, List.findSome?_cons]
    cases answer : lookup layer with
    | some found =>
      refine ⟨fun version isFound => ?_, nofun⟩
      cases isFound
      refine (front.isNewest found answer).union_of_newer ?_
      rintro version member older ⟨other, inRest, inOther⟩ same
      exact newer other inRest version member older inOther same
    | none =>
      have nothing := front.noneVisible answer
      refine ⟨fun version isFound => ?_, fun isNone => ?_⟩
      · exact (isNewest_union_of_noneVisible nothing version).mpr (back.isNewest version isFound)
      · exact noneVisible_union.mpr ⟨nothing, back.noneVisible isNone⟩

/-- Adding a part in which nothing is visible does not change what a lookup has to answer. -/
theorem Answers.union_of_noneVisible {content hidden : Set Version} {target : Key}
    {snapshot : Nat} {answer : Option Version}
    (answers : Answers key stamp content target snapshot answer)
    (nothing : NoneVisible key stamp hidden target snapshot) :
    Answers key stamp (hidden ∪ content) target snapshot answer :=
  ⟨fun version isFound =>
      (isNewest_union_of_noneVisible nothing version).mpr (answers.isNewest version isFound),
    fun isNone => noneVisible_union.mpr ⟨nothing, answers.noneVisible isNone⟩⟩

end LevelDb.Lib
