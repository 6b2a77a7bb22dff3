/-
This file develops what a reader of a multi-version store is served: the value that the newest
visible version of its key carries, or nothing when that version carries none. A version with a
later stamp is not seen, the newest version of all is what the next reader sees, and below a newer
layer a store may be exchanged for one that serves the same.
-/

import LevelDb.Lib.Newest

namespace LevelDb.Lib

variable {Version Key Value : Type}

/-- The value that a reader of `target` at `snapshot` is served. A version that carries no value
stands for a removed key. -/
def Serves (key : Version → Key) (stamp : Version → Nat) (carried : Version → Option Value)
    (store : Set Version) (target : Key) (snapshot : Nat) (served : Option Value) : Prop :=
  ∀ value, served = some value ↔
    ∃ version, IsNewest key stamp store target snapshot version ∧ carried version = some value

section Serves

variable {key : Version → Key} {stamp : Version → Nat} {carried : Version → Option Value}
  {store : Set Version} {target : Key} {snapshot : Nat} {served : Option Value}

theorem Serves.unique {other : Option Value}
    (first : Serves key stamp carried store target snapshot served)
    (second : Serves key stamp carried store target snapshot other) : served = other :=
  Option.ext fun value => (first value).trans (second value).symm

/-- What a lookup answers with carries what is served, when no two versions have one stamp. -/
theorem Answers.serves (unique : Set.InjOn stamp store) {answer : Option Version}
    (answers : Answers key stamp store target snapshot answer) :
    Serves key stamp carried store target snapshot (answer.bind carried) := by
  intro value
  constructor
  · intro isValue
    obtain ⟨version, isAnswer, carries⟩ := Option.bind_eq_some_iff.mp isValue
    exact ⟨version, answers.isNewest version isAnswer, carries⟩
  · rintro ⟨version, newest, carries⟩
    cases answer with
    | none => exact absurd (answers.noneVisible rfl) newest.not_noneVisible
    | some found =>
      have isNewest := answers.isNewest found rfl
      rw [unique newest.1 isNewest.1 (newest.stamp_eq isNewest)] at carries
      exact carries

theorem serves_empty (target : Key) (snapshot : Nat) :
    Serves key stamp carried ∅ target snapshot none := by
  intro value
  constructor
  · intro impossible
    cases impossible
  · rintro ⟨version, newest, -⟩
    exact absurd newest.1 (Set.notMem_empty version)

/-- A store in which the same versions with a value are newest serves the same. -/
theorem Serves.congr {other : Set Version}
    (serves : Serves key stamp carried store target snapshot served)
    (same : ∀ version, (carried version).isSome →
      (IsNewest key stamp other target snapshot version ↔
        IsNewest key stamp store target snapshot version)) :
    Serves key stamp carried other target snapshot served := by
  intro value
  rw [serves value]
  refine exists_congr fun version => and_congr_left fun isValue => (same version ?_).symm
  rw [isValue]
  rfl

/-- What is stamped after the snapshot is not seen. -/
theorem Serves.union_later (serves : Serves key stamp carried store target snapshot served)
    {extra : Set Version} (later : ∀ version ∈ extra, snapshot < stamp version) :
    Serves key stamp carried (extra ∪ store) target snapshot served :=
  serves.congr fun version _ =>
    isNewest_union_of_noneVisible (fun seen member _ => later seen member) version

/-- A version stamped after everything in the store is what a reader at its stamp sees of its
key. -/
theorem Serves.insert_newest (serves : Serves key stamp carried store target snapshot served)
    (upTo : ∀ version ∈ store, stamp version ≤ snapshot) [DecidableEq Key] {version : Version}
    (later : snapshot < stamp version) :
    Serves key stamp carried (insert version store) target (stamp version)
      (if key version = target then carried version else served) := by
  have older : ∀ other ∈ store, stamp other < stamp version := fun other member =>
    (upTo other member).trans_lt later
  by_cases same : key version = target
  · rw [if_pos same]
    intro value
    constructor
    · intro isValue
      refine ⟨version, ⟨Set.mem_insert _ _, same, le_rfl, fun other member _ _ => ?_⟩, isValue⟩
      rcases Set.mem_insert_iff.mp member with rfl | old
      · exact le_rfl
      · exact (older other old).le
    · rintro ⟨other, ⟨member, _, _, greatest⟩, isValue⟩
      rcases Set.mem_insert_iff.mp member with rfl | old
      · exact isValue
      · exact absurd (greatest version (Set.mem_insert _ _) same le_rfl)
          (not_le_of_gt (older other old))
  · rw [if_neg same]
    intro value
    rw [serves value]
    refine exists_congr fun other => and_congr_left fun _ => ?_
    constructor
    · rintro ⟨member, otherSame, visible, greatest⟩
      refine ⟨Or.inr member, otherSame, visible.trans later.le, fun third isThird thirdSame _ => ?_⟩
      rcases Set.mem_insert_iff.mp isThird with rfl | old
      · exact absurd thirdSame same
      · exact greatest third old thirdSame (upTo third old)
    · rintro ⟨member, otherSame, _, greatest⟩
      rcases Set.mem_insert_iff.mp member with rfl | old
      · exact absurd otherSame same
      · exact ⟨old, otherSame, upTo other old, fun third isThird thirdSame visible =>
          greatest third (Or.inr isThird) thirdSame (visible.trans later.le)⟩

/-- A front layer with something visible answers alone. -/
theorem isNewest_union_of_visible {front rest : Set Version} (newer : Newer key stamp front rest)
    (visible : ¬ NoneVisible key stamp front target snapshot) (version : Version) :
    IsNewest key stamp (front ∪ rest) target snapshot version ↔
      IsNewest key stamp front target snapshot version := by
  constructor
  · rintro ⟨member | member, same, isVisible, greatest⟩
    · exact ⟨member, same, isVisible, fun other inFront => greatest other (Or.inl inFront)⟩
    · refine absurd (fun other inFront otherSame => ?_) visible
      by_contra seen
      exact absurd (greatest other (Or.inl inFront) otherSame (not_lt.mp seen))
        (not_le_of_gt (newer other inFront version member (otherSame.trans same.symm)))
  · exact fun newest => newest.union_of_newer newer

/-- Below a newer layer a store can be exchanged for one that serves the same. -/
theorem Serves.replace_rest {front rest other : Set Version}
    (serves : Serves key stamp carried (front ∪ rest) target snapshot served)
    (newer : Newer key stamp front rest) (newerOther : Newer key stamp front other)
    (same : ∀ version, (carried version).isSome →
      (IsNewest key stamp other target snapshot version ↔
        IsNewest key stamp rest target snapshot version)) :
    Serves key stamp carried (front ∪ other) target snapshot served := by
  refine serves.congr fun version isValue => ?_
  by_cases hidden : NoneVisible key stamp front target snapshot
  · rw [isNewest_union_of_noneVisible hidden, isNewest_union_of_noneVisible hidden]
    exact same version isValue
  · rw [isNewest_union_of_visible newerOther hidden, isNewest_union_of_visible newer hidden]

end Serves

end LevelDb.Lib
