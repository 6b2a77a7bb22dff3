/-
This file states what the block cache is for and proves that it does that. The abstract cache maps
keys to entries, counts the handles of every entry, and remembers when each entry was released last;
while the charges exceed the capacity it gives up the entry without handles whose last release is
the oldest. The modelled cache makes the same choices in every run.
-/

import LevelDb.LruInvariant
import Mathlib.Data.List.MinMax

namespace LevelDb

/-- What a client inserts. -/
structure CachedItem (κ ν : Type) where
  key : κ
  value : ν
  charge : Nat

/-- The abstract cache. Entries are numbered as they are inserted; `present` has those that were
not displaced, erased or evicted. -/
structure CacheSpec (κ ν : Type) where
  capacity : Nat
  item : Nat → CachedItem κ ν
  next : Nat
  present : List Nat
  handles : List Nat
  releasedAt : Nat → Nat
  clock : Nat

namespace CacheSpec

variable {κ ν : Type}

def new [Inhabited κ] [Inhabited ν] (capacity : Nat) : CacheSpec κ ν where
  capacity := capacity
  item := fun _ => ⟨default, default, 0⟩
  next := 2
  present := []
  handles := []
  releasedAt := fun _ => 0
  clock := 1

/-- The charges of what is present, as a `size_t` adds them up. -/
def usage (spec : CacheSpec κ ν) : Nat :=
  (spec.present.map fun entry => (spec.item entry).charge).sum % kSizeValues

/-- The present entry without handles that was released before all others. -/
def oldest (spec : CacheSpec κ ν) : Option Nat :=
  (spec.present.filter fun entry => entry ∉ spec.handles).argmin spec.releasedAt

def drop (spec : CacheSpec κ ν) (entry : Nat) : CacheSpec κ ν :=
  { spec with present := spec.present.erase entry }

/-- Give up the oldest entries while the charges exceed the capacity. -/
def evict : Nat → CacheSpec κ ν → CacheSpec κ ν
  | 0, spec => spec
  | fuel + 1, spec =>
    if spec.usage > spec.capacity then
      match spec.oldest with
      | some entry => evict fuel (spec.drop entry)
      | none => spec
    else spec

/-- Give up all entries without handles. -/
def prune : Nat → CacheSpec κ ν → CacheSpec κ ν
  | 0, spec => spec
  | fuel + 1, spec =>
    match spec.oldest with
    | some entry => prune fuel (spec.drop entry)
    | none => spec

variable [DecidableEq κ]

/-- The entry that a key is mapped to. -/
def find (spec : CacheSpec κ ν) (key : κ) : Option Nat :=
  spec.present.find? fun entry => (spec.item entry).key = key

/-- A new entry, with one handle. -/
def link (spec : CacheSpec κ ν) (key : κ) (value : ν) (charge : Nat) : CacheSpec κ ν :=
  { spec with
    item := Function.update spec.item spec.next ⟨key, value, charge⟩
    present := spec.next :: spec.present
    handles := spec.next :: spec.handles
    next := spec.next + 1 }

/-- A new entry displaces the old one with its key. -/
def insert (spec : CacheSpec κ ν) (key : κ) (value : ν) (charge : Nat) : CacheSpec κ ν :=
  match spec.find key with
  | some old => (spec.link key value charge).drop old
  | none => spec.link key value charge

/-- Remove the mapping of a key. -/
def erase (spec : CacheSpec κ ν) (key : κ) : CacheSpec κ ν :=
  match spec.find key with
  | some entry => spec.drop entry
  | none => spec

def call (spec : CacheSpec κ ν) : CacheCall κ ν → Option (CacheSpec κ ν)
  | .insert key value charge =>
    if charge < kSizeValues then
      let inserted := spec.insert key value charge
      some (evict inserted.present.length inserted)
    else none
  | .lookup key => some { spec with handles := (spec.find key).toList ++ spec.handles }
  | .release handle =>
    if handle ∈ spec.handles then
      some { spec with
        handles := spec.handles.erase handle
        releasedAt := Function.update spec.releasedAt handle spec.clock
        clock := spec.clock + 1 }
    else none
  | .erase key => some (spec.erase key)
  | .prune => some (prune spec.present.length spec)

/-- The references to an entry: one for being present and one for each handle. -/
def refs (spec : CacheSpec κ ν) (entry : Nat) : Nat :=
  (if entry ∈ spec.present then 1 else 0) + spec.handles.count entry

end CacheSpec

namespace LRUCache

variable {κ ν : Type}

/-- What the cache has to show of an abstract one beside its lists and counts. -/
structure SameItems (hash : κ → Nat) (cache : LRUCache κ ν) (spec : CacheSpec κ ν) : Prop where
  capacity : cache.capacity = spec.capacity
  next : cache.nextAddress = spec.next
  key : ∀ entry, 2 ≤ entry → entry < spec.next →
    cache.info entry = ((spec.item entry).key, hash (spec.item entry).key)
  value : ∀ entry, 2 ≤ entry → entry < spec.next →
    (cache.entries.value entry).value = (spec.item entry).value
  charge : ∀ entry, 2 ≤ entry → entry < spec.next → cache.chargeOf entry = (spec.item entry).charge

/-- The modelled cache does what the abstract one does, apart from the record of the handles. The
entries that only the cache refers to are in the order of their last releases. -/
structure Refines (hash : κ → Nat) (cache : LRUCache κ ν) (spec : CacheSpec κ ν)
    (idle : List Nat) : Prop extends SameItems hash cache spec where
  present : cache.table.contents.Perm spec.present
  valid : cache.table.Valid cache.info
  sound : cache.Sound cache.table.contents spec.refs idle
  sorted : idle.Pairwise fun first second => spec.releasedAt first < spec.releasedAt second

variable {hash : κ → Nat} {cache cache' : LRUCache κ ν} {spec spec' : CacheSpec κ ν}
  {idle idle' : List Nat}

theorem Refines.bounds (refines : Refines hash cache spec idle) {entry : Nat}
    (member : entry ∈ spec.present) : 2 ≤ entry ∧ entry < spec.next := by
  have exists' := refines.sound.lists.mem_entries entry (refines.present.mem_iff.mpr member)
  exact ⟨refines.sound.lists.entry_ge entry exists',
    refines.next ▸ refines.sound.entry_lt entry exists'⟩

/-- The cache uses what the abstract cache says. -/
theorem Refines.usage_eq (refines : Refines hash cache spec idle) : cache.usage = spec.usage := by
  have charges : spec.present.map cache.chargeOf =
      spec.present.map fun entry => (spec.item entry).charge :=
    List.map_congr_left fun entry member =>
      refines.charge entry (refines.bounds member).1 (refines.bounds member).2
  rw [refines.sound.usage_eq, (refines.present.map _).sum_eq, charges, CacheSpec.usage]

/-! ### Looking up -/

/-- The hash table finds the entry that the key is mapped to. -/
theorem Refines.lookup_eq [DecidableEq κ] (refines : Refines hash cache spec idle) (key : κ) :
    cache.table.lookup cache.info key (hash key) = spec.find key := by
  cases found : spec.find key with
  | none =>
    rw [CacheSpec.find, List.find?_eq_none] at found
    refine Option.eq_none_iff_forall_ne_some.mpr fun entry looked => ?_
    obtain ⟨member, same⟩ := refines.valid.lookup_eq_some.mp looked
    have present := refines.present.mem_iff.mp member
    obtain ⟨large, less⟩ := refines.bounds present
    rw [refines.key entry large less] at same
    exact found entry present (decide_eq_true (congrArg Prod.fst same))
  | some entry =>
    rw [CacheSpec.find] at found
    have matched := List.find?_some found
    have isKey : (spec.item entry).key = key := of_decide_eq_true matched
    have present := List.mem_of_find?_eq_some found
    obtain ⟨large, less⟩ := refines.bounds present
    refine refines.valid.lookup_eq_some.mpr ⟨refines.present.mem_iff.mpr present, ?_⟩
    rw [refines.key entry large less, isKey]

/-! ### Entries that leave the table -/

theorem refs_drop (nodup : spec.present.Nodup) {entry : Nat} (member : entry ∈ spec.present)
    (other : Nat) :
    spec.refs other = (spec.drop entry).refs other + if other = entry then 1 else 0 := by
  have dropped : other ∈ (spec.drop entry).present ↔ other ≠ entry ∧ other ∈ spec.present :=
    nodup.mem_erase_iff
  have handles : (spec.drop entry).handles = spec.handles := rfl
  rw [CacheSpec.refs, CacheSpec.refs, handles]
  by_cases same : other = entry
  · rw [same] at dropped ⊢
    rw [if_pos member, if_neg fun still => (dropped.mp still).1 rfl, if_pos rfl]
    omega
  · rw [if_neg same, if_congr (dropped.trans (and_iff_right same)) rfl rfl, Nat.add_zero]

/-- An entry that the hash table has lost is finished. -/
theorem finishErase_refines {table : HandleTable} {contents : List Nat} {old : Nat}
    (same : SameItems hash cache spec) (valid : table.Valid cache.info)
    (sound : cache.Sound contents spec.refs idle) (present : contents.Perm spec.present)
    (split : contents.Perm (old :: table.contents))
    (sorted : idle.Pairwise fun first second => spec.releasedAt first < spec.releasedAt second) :
    Refines hash ({ cache with table := table }.finishErase old) (spec.drop old) (idle.erase old) ∧
      SameEntries ({ cache with table := table }.finishErase old) cache := by
  have rest : (old :: table.contents).Perm spec.present := split.symm.trans present
  have member : old ∈ spec.present := rest.mem_iff.mp List.mem_cons_self
  have moved : { cache with table := table }.Sound contents spec.refs idle := { sound with }
  have finished := moved.finishErase split (refs_drop (present.nodup_iff.mp sound.nodup) member)
  have sameData := finishErase_sameData { cache with table := table } old
  have kept : SameEntries ({ cache with table := table }.finishErase old) cache :=
    ⟨sameData.capacity, sameData.nextAddress, sameData.handles, sameData.key, sameData.hash,
      sameData.value, sameData.charge⟩
  have sameTable : ({ cache with table := table }.finishErase old).table = table := sameData.table
  refine ⟨⟨⟨kept.capacity.trans same.capacity, kept.nextAddress.trans same.next,
    fun entry large less => ?_, fun entry large less => ?_, fun entry large less => ?_⟩, ?_, ?_,
    sameTable.symm ▸ finished, sorted.sublist List.erase_sublist⟩, kept⟩
  · rw [kept.info]
    exact same.key entry large less
  · rw [kept.value]
    exact same.value entry large less
  · rw [kept.chargeOf]
    exact same.charge entry large less
  · rw [sameTable]
    exact (List.cons_perm_iff_perm_erase.mp rest).2
  · rw [sameTable, kept.info]
    exact valid

/-- Erasing the key of an entry that the hash table has. -/
theorem Refines.eraseKey [DecidableEq κ] (refines : Refines hash cache spec idle) {key : κ}
    {tag entry : Nat} (found : cache.table.lookup cache.info key tag = some entry) :
    Refines hash (cache.eraseKey key tag) (spec.drop entry) (idle.erase entry) ∧
      SameEntries (cache.eraseKey key tag) cache := by
  obtain ⟨result, valid, perm⟩ := refines.valid.remove key tag
  rw [found] at result
  rw [result] at perm
  have erased : cache.eraseKey key tag =
      { cache with table := (cache.table.remove cache.info key tag).2 }.finishErase entry := by
    rw [LRUCache.eraseKey, result]
    rfl
  rw [erased]
  exact finishErase_refines refines.toSameItems valid refines.sound refines.present perm.symm
    refines.sorted

/-- The relation after references and lists changed. -/
theorem Refines.relist (refines : Refines hash cache spec idle) (same : SameData cache' cache)
    (capacity : spec'.capacity = spec.capacity) (item : spec'.item = spec.item)
    (next : spec'.next = spec.next) (present : spec'.present = spec.present)
    (sound : cache'.Sound cache.table.contents spec'.refs idle')
    (sorted : idle'.Pairwise fun first second =>
      spec'.releasedAt first < spec'.releasedAt second) : Refines hash cache' spec' idle' := by
  refine ⟨⟨?_, ?_, fun entry large less => ?_, fun entry large less => ?_,
    fun entry large less => ?_⟩, ?_, ?_, same.table ▸ sound, sorted⟩
  · rw [same.capacity, capacity, refines.capacity]
  · rw [same.nextAddress, next, refines.next]
  · rw [same.info, item]
    exact refines.key entry large (next ▸ less)
  · rw [same.value, item]
    exact refines.value entry large (next ▸ less)
  · rw [same.chargeOf, item]
    exact refines.charge entry large (next ▸ less)
  · rw [same.table, present]
    exact refines.present
  · rw [same.table, same.info]
    exact refines.valid

/-! ### Eviction -/

theorem Refines.mem_idle (refines : Refines hash cache spec idle) (entry : Nat) :
    entry ∈ idle ↔ entry ∈ spec.present.filter fun entry => entry ∉ spec.handles := by
  rw [refines.sound.lists.mem_idle, refines.present.mem_iff, List.mem_filter, decide_eq_true_eq]
  refine and_congr_right fun member => ?_
  rw [CacheSpec.refs, if_pos member, ← List.count_eq_zero]
  omega

/-- The first entry of `lru_` is the one that was released before all others. -/
theorem Refines.oldest_eq (refines : Refines hash cache spec idle) : spec.oldest = idle.head? := by
  cases idle with
  | nil =>
    have none : spec.present.filter (fun entry => entry ∉ spec.handles) = [] :=
      List.eq_nil_iff_forall_not_mem.mpr fun entry member =>
        List.not_mem_nil ((refines.mem_idle entry).mpr member)
    rw [CacheSpec.oldest, none]
    rfl
  | cons first rest =>
    have firstMember := (refines.mem_idle first).mp List.mem_cons_self
    cases found : spec.oldest with
    | none =>
      rw [CacheSpec.oldest, List.argmin_eq_none] at found
      rw [found] at firstMember
      cases firstMember
    | some entry =>
      rw [CacheSpec.oldest, List.argmin_eq_some_iff] at found
      have entryMember := (refines.mem_idle entry).mpr found.1
      have notLater := found.2.1 first firstMember
      rcases List.mem_cons.mp entryMember with isFirst | inRest
      · rw [isFirst]
        rfl
      · exact absurd ((List.pairwise_cons.mp refines.sorted).1 entry inRest) (not_lt.mpr notLater)

/-- Erasing the first entry of `lru_`. -/
theorem Refines.eraseOldest [DecidableEq κ] {entry : Nat}
    (refines : Refines hash cache spec (entry :: idle)) :
    Refines hash cache.eraseOldest (spec.drop entry) idle ∧ SameEntries cache.eraseOldest cache := by
  have first : cache.links.next lru = entry := refines.sound.lists.idleRing.ends.1
  have member : entry ∈ cache.table.contents :=
    ((refines.sound.lists.mem_idle entry).mp List.mem_cons_self).1
  have found : cache.table.lookup cache.info (cache.entries.value entry).key
      (cache.entries.value entry).hash = some entry :=
    refines.valid.lookup_eq_some.mpr ⟨member, rfl⟩
  have erased := refines.eraseKey found
  rw [List.erase_cons_head] at erased
  rw [LRUCache.eraseOldest, first]
  exact erased

/-- Each erased entry makes the table smaller. -/
theorem Refines.length_drop (refines : Refines hash cache spec idle) {entry : Nat}
    (dropped : Refines hash cache' (spec.drop entry) idle') (member : entry ∈ spec.present) :
    cache'.table.contents.length + 1 = cache.table.contents.length := by
  rw [dropped.present.length_eq, refines.present.length_eq, CacheSpec.drop,
    List.length_erase_of_mem member]
  have positive := List.length_pos_of_mem member
  omega

theorem Refines.idle_subset (refines : Refines hash cache spec idle) {entry : Nat}
    (member : entry ∈ idle) : entry ∈ spec.present :=
  (List.mem_filter.mp ((refines.mem_idle entry).mp member)).1

theorem Refines.next_ne_iff (refines : Refines hash cache spec idle) :
    cache.links.next lru ≠ lru ↔ idle ≠ [] :=
  not_congr refines.sound.lists.idleRing.next_head_eq_iff

/-- The loop of `Insert` evicts the entries that were released first, and it ends because the
charges fit or nothing is left to evict. -/
theorem Refines.evict [DecidableEq κ] (refines : Refines hash cache spec idle) (fuel : Nat) :
    ∃ idle', Refines hash (cache.evict fuel) (spec.evict fuel) idle' ∧
      SameEntries (cache.evict fuel) cache ∧
      (cache.table.contents.length ≤ fuel → (cache.evict fuel).usage ≤ cache.capacity ∨
        idle' = []) := by
  induction fuel generalizing cache spec idle with
  | zero =>
    refine ⟨idle, refines, .refl cache, fun enough => Or.inr ?_⟩
    refine List.eq_nil_iff_forall_not_mem.mpr fun entry member => ?_
    have present := refines.idle_subset member
    rw [← refines.present.mem_iff, List.length_eq_zero_iff.mp (Nat.le_zero.mp enough)] at present
    cases present
  | succ fuel inductionHypothesis =>
    have condition : cache.usage > cache.capacity ↔ spec.usage > spec.capacity := by
      rw [refines.usage_eq, refines.capacity]
    rw [LRUCache.evict, CacheSpec.evict]
    by_cases full : cache.usage > cache.capacity
    · rw [if_pos (condition.mp full), refines.oldest_eq]
      cases idle with
      | nil =>
        have stopped := fun both : cache.usage > cache.capacity ∧ cache.links.next lru ≠ lru =>
          refines.next_ne_iff.mp both.2 rfl
        rw [if_neg stopped]
        exact ⟨[], refines, .refl cache, fun _ => Or.inr rfl⟩
      | cons first rest =>
        obtain ⟨erased, same⟩ := refines.eraseOldest
        obtain ⟨idle', after, sameAfter, ended⟩ := inductionHypothesis erased
        rw [if_pos ⟨full, refines.next_ne_iff.mpr (List.cons_ne_nil first rest)⟩]
        refine ⟨idle', after, sameAfter.trans same, fun enough => ?_⟩
        have fewer := refines.length_drop erased (refines.idle_subset List.mem_cons_self)
        exact same.capacity ▸ ended (by omega)
    · rw [if_neg (fun both => full both.1), if_neg (condition.not.mp full)]
      exact ⟨idle, refines, .refl cache, fun _ => Or.inl (not_lt.mp full)⟩

/-- The loop of `Prune` leaves no entry without handles. -/
theorem Refines.prune [DecidableEq κ] (refines : Refines hash cache spec idle) (fuel : Nat) :
    ∃ idle', Refines hash (cache.pruneLoop fuel) (spec.prune fuel) idle' ∧
      SameEntries (cache.pruneLoop fuel) cache ∧
      (cache.table.contents.length ≤ fuel → idle' = []) := by
  induction fuel generalizing cache spec idle with
  | zero =>
    refine ⟨idle, refines, .refl cache, fun enough => ?_⟩
    refine List.eq_nil_iff_forall_not_mem.mpr fun entry member => ?_
    have present := refines.idle_subset member
    rw [← refines.present.mem_iff, List.length_eq_zero_iff.mp (Nat.le_zero.mp enough)] at present
    cases present
  | succ fuel inductionHypothesis =>
    rw [LRUCache.pruneLoop, CacheSpec.prune, refines.oldest_eq]
    cases idle with
    | nil =>
      rw [if_neg fun notEmpty => refines.next_ne_iff.mp notEmpty rfl]
      exact ⟨[], refines, .refl cache, fun _ => rfl⟩
    | cons first rest =>
      obtain ⟨erased, same⟩ := refines.eraseOldest
      obtain ⟨idle', after, sameAfter, ended⟩ := inductionHypothesis erased
      rw [if_pos (refines.next_ne_iff.mpr (List.cons_ne_nil first rest))]
      refine ⟨idle', after, sameAfter.trans same, fun enough => ended ?_⟩
      have fewer := refines.length_drop erased (refines.idle_subset List.mem_cons_self)
      omega

/-! ### Calls -/

/-- `Erase` does what the abstract cache does. -/
theorem Refines.erase [DecidableEq κ] (refines : Refines hash cache spec idle) (key : κ) :
    ∃ idle', Refines hash (cache.erase key (hash key)) (spec.erase key) idle' ∧
      SameEntries (cache.erase key (hash key)) cache := by
  rw [LRUCache.erase, CacheSpec.erase, ← refines.lookup_eq]
  cases found : cache.table.lookup cache.info key (hash key) with
  | some entry =>
    obtain ⟨erased, same⟩ := refines.eraseKey found
    exact ⟨_, erased, same⟩
  | none =>
    have unchanged : cache.eraseKey key (hash key) = cache := by
      rw [LRUCache.eraseKey, HandleTable.remove_of_lookup_none found]
      rfl
    rw [unchanged]
    exact ⟨idle, refines, .refl cache⟩

section

variable {key : κ} {value : ν} {charge : Nat}

theorem Refines.next_fresh (refines : Refines hash cache spec idle) : spec.refs spec.next = 0 := by
  refine Nat.eq_zero_of_not_pos fun positive => ?_
  have exists' := refines.sound.balanced.mem_of_pos _ positive
  have less := refines.sound.entry_lt _ exists'
  rw [refines.next] at less
  exact lt_irrefl _ less

theorem refs_link (unused : spec.refs spec.next = 0) :
    (spec.link key value charge).refs spec.next = 2 ∧
      ∀ other, other ≠ spec.next → (spec.link key value charge).refs other = spec.refs other := by
  rw [CacheSpec.refs] at unused
  constructor
  · rw [CacheSpec.refs, CacheSpec.link, if_pos List.mem_cons_self, Lib.Heap.count_cons, if_pos rfl]
    omega
  · intro other different
    rw [CacheSpec.refs, CacheSpec.refs, CacheSpec.link, Lib.Heap.count_cons, if_neg different,
      Nat.add_zero]
    exact congrArg (· + spec.handles.count other)
      (if_congr (by rw [List.mem_cons, or_iff_right different]) rfl rfl)

/-- The new entry is linked and charged as the abstract cache has it. -/
theorem Refines.link_sound (refines : Refines hash cache spec idle) (fits : charge < kSizeValues) :
    (cache.link key (hash key) value charge).Sound (cache.nextAddress :: cache.table.contents)
      (spec.link key value charge).refs idle := by
  obtain ⟨new, others⟩ := @refs_link _ _ _ key value charge refines.next_fresh
  rw [← refines.next] at new others
  exact refines.sound.link fits new others

theorem link_item_new : (spec.link key value charge).item spec.next = ⟨key, value, charge⟩ :=
  Function.update_self _ _ _

theorem link_item {entry : Nat} (different : entry ≠ spec.next) :
    (spec.link key value charge).item entry = spec.item entry :=
  Function.update_of_ne different _ _

/-- The data of the entries after the new one was linked. -/
theorem Refines.link_items (refines : Refines hash cache spec idle) :
    SameItems hash (cache.link key (hash key) value charge) (spec.link key value charge) := by
  have linked : ∀ entry, 2 ≤ entry → entry < spec.next + 1 →
      (cache.link key (hash key) value charge).info entry =
        (((spec.link key value charge).item entry).key,
          hash ((spec.link key value charge).item entry).key) ∧
      ((cache.link key (hash key) value charge).entries.value entry).value =
        ((spec.link key value charge).item entry).value ∧
      (cache.link key (hash key) value charge).chargeOf entry =
        ((spec.link key value charge).item entry).charge := by
    intro entry large less
    rw [LRUCache.info, LRUCache.chargeOf]
    by_cases isNew : entry = cache.nextAddress
    · rw [isNew, link_value_new, refines.next, link_item_new]
      exact ⟨rfl, rfl, rfl⟩
    · have isOld : entry < spec.next := by
        rw [refines.next] at isNew
        omega
      rw [link_value _ _ _ _ _ isNew, link_item (refines.next ▸ isNew)]
      exact ⟨refines.key entry large isOld, refines.value entry large isOld,
        refines.charge entry large isOld⟩
  exact ⟨refines.capacity, congrArg (· + 1) refines.next,
    fun entry large less => (linked entry large less).1,
    fun entry large less => (linked entry large less).2.1,
    fun entry large less => (linked entry large less).2.2⟩

theorem Refines.link_info (refines : Refines hash cache spec idle) :
    ∀ entry ∈ cache.table.contents,
      (cache.link key (hash key) value charge).info entry = cache.info entry := by
  intro entry member
  have exists' := refines.sound.lists.mem_entries entry member
  have old : entry ≠ cache.nextAddress := (refines.sound.entry_lt entry exists').ne
  rw [LRUCache.info, link_value _ _ _ _ _ old, LRUCache.info]

/-- The new entry takes the place of the old one with its key. -/
theorem Refines.intoTable [DecidableEq κ] (refines : Refines hash cache spec idle) (key : κ)
    (value : ν) (fits : charge < kSizeValues) :
    ∃ idle', Refines hash ((cache.link key (hash key) value charge).intoTable cache.nextAddress)
        (spec.insert key value charge) idle' ∧
      SameEntries ((cache.link key (hash key) value charge).intoTable cache.nextAddress)
        (cache.link key (hash key) value charge) := by
  set linked := cache.link key (hash key) value charge with linkedEq
  have tableSame : linked.table = cache.table := rfl
  have valid : linked.table.Valid linked.info := refines.valid.congr refines.link_info
  have newInfo : linked.info cache.nextAddress = (key, hash key) := by
    rw [linkedEq, LRUCache.info, link_value_new]
  obtain ⟨result, inserted, perm⟩ := valid.insert cache.nextAddress
  have looked : linked.table.lookup linked.info key (hash key) = spec.find key := by
    rw [tableSame, refines.valid.lookup_congr refines.link_info]
    exact refines.lookup_eq key
  rw [newInfo, looked] at result
  have sound : linked.Sound (cache.nextAddress :: cache.table.contents)
    (spec.link key value charge).refs idle := refines.link_sound fits
  have items : SameItems hash linked (spec.link key value charge) := refines.link_items
  have present : (cache.nextAddress :: cache.table.contents).Perm
      (spec.link key value charge).present := by
    rw [refines.next]
    exact refines.present.cons spec.next
  cases found : spec.find key with
  | none =>
    have result' : linked.intoTable cache.nextAddress =
        { linked with table := (linked.table.insert linked.info cache.nextAddress).2 } := by
      rw [LRUCache.intoTable, result, found]
      rfl
    rw [result, found] at perm
    have moved : { linked with
        table := (linked.table.insert linked.info cache.nextAddress).2 }.Sound
      (cache.nextAddress :: cache.table.contents) (spec.link key value charge).refs idle :=
        { sound with }
    rw [result', CacheSpec.insert, found]
    exact ⟨idle, ⟨{ items with }, perm.trans present, inserted, moved.perm perm, refines.sorted⟩,
      rfl, rfl, rfl, fun _ => rfl, fun _ => rfl, fun _ => rfl, fun _ => rfl⟩
  | some old =>
    have result' : linked.intoTable cache.nextAddress =
        { linked with
          table := (linked.table.insert linked.info cache.nextAddress).2 }.finishErase old := by
      rw [LRUCache.intoTable, result, found]
      rfl
    rw [result, found] at perm
    rw [result', CacheSpec.insert, found]
    exact ⟨idle.erase old, finishErase_refines items inserted sound present perm.symm
      refines.sorted⟩

/-- `Insert` does what the abstract cache does, and its loop ends because the charges fit or
nothing is left to evict. -/
theorem Refines.insert [DecidableEq κ] (refines : Refines hash cache spec idle) (key : κ)
    (value : ν) (positive : 0 < cache.capacity) (fits : charge < kSizeValues) :
    ∃ idle', Refines hash (cache.insert key (hash key) value charge)
        (CacheSpec.evict (spec.insert key value charge).present.length
          (spec.insert key value charge)) idle' ∧
      SameEntries (cache.insert key (hash key) value charge)
        (cache.link key (hash key) value charge) ∧
      ((cache.insert key (hash key) value charge).usage ≤ cache.capacity ∨ idle' = []) := by
  obtain ⟨middle, inserted, same⟩ := refines.intoTable key value fits
  set cached := (cache.link key (hash key) value charge).intoTable cache.nextAddress with cachedEq
  have count : cached.table.elems = cached.table.contents.length := inserted.valid.elems_eq
  have fuel : (spec.insert key value charge).present.length = cached.table.elems := by
    rw [count, inserted.present.length_eq]
  obtain ⟨idle', evicted, sameEvicted, ended⟩ := inserted.evict cached.table.elems
  have isInsert : cache.insert key (hash key) value charge = cached.evict cached.table.elems := by
    rw [LRUCache.insert, if_pos positive]
  rw [isInsert, fuel]
  have capacity : cached.capacity = cache.capacity := same.capacity
  exact ⟨idle', evicted, sameEvicted.trans same, capacity ▸ ended count.ge⟩

end

/-! ### Runs -/

/-- A cache and the abstract one after the same calls. -/
structure Related (hash : κ → Nat) (cache : LRUCache κ ν) (spec : CacheSpec κ ν) : Prop where
  positive : 0 < cache.capacity
  handles : cache.handles = spec.handles
  released_lt : ∀ entry, spec.releasedAt entry < spec.clock
  refines : ∃ idle, Refines hash cache spec idle

theorem related_new [Inhabited κ] [Inhabited ν] {capacity : Nat} (positive : 0 < capacity) :
    Related hash (new capacity : LRUCache κ ν) (CacheSpec.new capacity) := by
  have empty : (new capacity : LRUCache κ ν).table.contents = [] :=
    (HandleTable.new_valid (new capacity : LRUCache κ ν).info).2
  have unreferenced : ∀ entry, (CacheSpec.new capacity : CacheSpec κ ν).refs entry = 0 :=
    fun entry => rfl
  have noEntry : ∀ entry, entry ∉ (new capacity : LRUCache κ ν).entries.numbers :=
    fun entry => Finset.notMem_empty entry
  have alone : ∀ head : Nat, (new capacity : LRUCache κ ν).links.Ring head [] := fun head =>
    ⟨List.nodup_singleton head, List.isChain_cons_cons.mpr ⟨⟨rfl, rfl⟩, List.isChain_singleton head⟩⟩
  have lists : Lists (new capacity : LRUCache κ ν).links
      (new capacity : LRUCache κ ν).entries.numbers [] (CacheSpec.new capacity : CacheSpec κ ν).refs
      [] := by
    refine ⟨fun entry member => absurd member (noEntry entry), fun entry member => absurd member
      List.not_mem_nil, fun entry member => absurd member List.not_mem_nil, alone lru,
      fun entry => by simp, ⟨[], alone inUse, fun entry => by simp⟩,
      fun entry member => absurd member (noEntry entry)⟩
  have sound : (new capacity : LRUCache κ ν).Sound []
      (CacheSpec.new capacity : CacheSpec κ ν).refs [] := by
    refine ⟨⟨fun entry member => absurd member (noEntry entry), fun entry held => ?_⟩,
      fun entry member => absurd member (noEntry entry), le_rfl,
      fun entry member => absurd member (noEntry entry), lists,
      fun entry member => absurd member (noEntry entry), List.nodup_nil, rfl,
      fun entry member => absurd member (noEntry entry), fun entry => ?_,
      fun deletion member => absurd member List.not_mem_nil⟩
    · rw [unreferenced] at held
      exact absurd held (lt_irrefl 0)
    · refine (if_neg fun all => ?_).symm
      exact absurd all.2.1 (not_lt.mpr all.1)
  refine ⟨positive, rfl, fun _ => Nat.one_pos, [], ⟨⟨rfl, rfl, fun entry large less => ?_,
    fun entry large less => ?_, fun entry large less => ?_⟩, ?_, ?_, ?_, List.Pairwise.nil⟩⟩
  · exact absurd less (not_lt.mpr large)
  · exact absurd less (not_lt.mpr large)
  · exact absurd less (not_lt.mpr large)
  · rw [empty]
    exact List.Perm.refl _
  · exact (HandleTable.new_valid _).1
  · rw [empty]
    exact sound

/-- What the abstract cache keeps when entries leave it. -/
theorem evict_clock (fuel : Nat) (spec : CacheSpec κ ν) :
    (spec.evict fuel).releasedAt = spec.releasedAt ∧ (spec.evict fuel).clock = spec.clock ∧
      (spec.evict fuel).handles = spec.handles := by
  induction fuel generalizing spec with
  | zero => exact ⟨rfl, rfl, rfl⟩
  | succ fuel inductionHypothesis =>
    rw [CacheSpec.evict]
    split
    · split
      · exact inductionHypothesis _
      · exact ⟨rfl, rfl, rfl⟩
    · exact ⟨rfl, rfl, rfl⟩

theorem prune_clock (fuel : Nat) (spec : CacheSpec κ ν) :
    (spec.prune fuel).releasedAt = spec.releasedAt ∧ (spec.prune fuel).clock = spec.clock ∧
      (spec.prune fuel).handles = spec.handles := by
  induction fuel generalizing spec with
  | zero => exact ⟨rfl, rfl, rfl⟩
  | succ fuel inductionHypothesis =>
    rw [CacheSpec.prune]
    split
    · exact inductionHypothesis _
    · exact ⟨rfl, rfl, rfl⟩

variable [DecidableEq κ]

theorem insert_clock (spec : CacheSpec κ ν) (key : κ) (value : ν) (charge : Nat) :
    (spec.insert key value charge).releasedAt = spec.releasedAt ∧
      (spec.insert key value charge).clock = spec.clock ∧
      (spec.insert key value charge).handles = spec.next :: spec.handles := by
  rw [CacheSpec.insert]
  split
  · exact ⟨rfl, rfl, rfl⟩
  · exact ⟨rfl, rfl, rfl⟩

theorem Related.insert (related : Related hash cache spec) (key : κ) (value : ν) (charge : Nat) :
    Option.Rel (Related hash) (cache.call hash (.insert key value charge))
      (spec.call (.insert key value charge)) := by
  obtain ⟨idle, refines⟩ := related.refines
  rw [LRUCache.call, CacheSpec.call]
  split
  · rename_i fits
    obtain ⟨idle', inserted, same, _⟩ :=
      refines.insert key value related.positive fits
    obtain ⟨released, clock, handles⟩ := insert_clock spec key value charge
    obtain ⟨releasedAfter, clockAfter, handlesAfter⟩ := evict_clock
      (spec.insert key value charge).present.length (spec.insert key value charge)
    refine .some ⟨?_, ?_, fun entry => ?_, idle',
      { inserted with sound := { inserted.sound with } }⟩
    · exact same.capacity ▸ related.positive
    · rw [handlesAfter, handles, ← refines.next, ← related.handles]
    · rw [releasedAfter, clockAfter, released, clock]
      exact related.released_lt entry
  · exact .none

theorem Related.lookup (related : Related hash cache spec) (key : κ) :
    Option.Rel (Related hash) (cache.call hash (.lookup key)) (spec.call (.lookup key)) := by
  obtain ⟨idle, refines⟩ := related.refines
  rw [LRUCache.call, CacheSpec.call, LRUCache.lookup, refines.lookup_eq key]
  cases found : spec.find key with
  | none =>
    exact .some ⟨related.positive, related.handles, related.released_lt, idle,
      { refines with sound := { refines.sound with } }⟩
  | some entry =>
    have present : entry ∈ spec.present := List.mem_of_find?_eq_some found
    have taken : ∀ other, CacheSpec.refs { spec with handles := entry :: spec.handles } other =
        spec.refs other + if other = entry then 1 else 0 := by
      intro other
      rw [CacheSpec.refs, CacheSpec.refs, Lib.Heap.count_cons]
      exact (Nat.add_assoc _ _ _).symm
    have referenced := refines.sound.ref (refines.present.mem_iff.mpr present) taken
    have same := ref_sameData cache entry
    have relisted : Refines hash (cache.ref entry) { spec with handles := entry :: spec.handles }
        (idle.erase entry) :=
      refines.relist same rfl rfl rfl rfl referenced (refines.sorted.sublist List.erase_sublist)
    refine .some ⟨?_, ?_, related.released_lt, idle.erase entry,
      { relisted with sound := { relisted.sound with } }⟩
    · exact same.capacity ▸ related.positive
    · exact congrArg (entry :: ·) related.handles

theorem Related.release (related : Related hash cache spec) (handle : Nat) :
    Option.Rel (Related hash) (cache.call hash (.release handle)) (spec.call (.release handle)) := by
  obtain ⟨idle, refines⟩ := related.refines
  rw [LRUCache.call, CacheSpec.call, LRUCache.release, related.handles]
  split
  · rename_i member
    set spec' : CacheSpec κ ν := { spec with
      handles := spec.handles.erase handle
      releasedAt := Function.update spec.releasedAt handle spec.clock
      clock := spec.clock + 1 } with spec'Eq
    have dropped : ∀ other, spec.refs other = spec'.refs other + if other = handle then 1 else 0 := by
      intro other
      rw [CacheSpec.refs, CacheSpec.refs, (List.perm_cons_erase member).count_eq,
        Lib.Heap.count_cons]
      exact (Nat.add_assoc _ _ _).symm
    have kept : handle ∈ cache.table.contents → 0 < spec'.refs handle := by
      intro inTable
      rw [CacheSpec.refs, if_pos (refines.present.mem_iff.mp inTable : handle ∈ spec'.present)]
      exact Nat.add_pos_left Nat.one_pos _
    have notIdle : handle ∉ idle := fun isIdle =>
      (of_decide_eq_true (List.mem_filter.mp ((refines.mem_idle handle).mp isIdle)).2) member
    have now : spec'.releasedAt handle = spec.clock := Function.update_self _ _ _
    have before : ∀ other, other ≠ handle → spec'.releasedAt other = spec.releasedAt other :=
      fun other different => Function.update_of_ne different _ _
    have oldSorted : idle.Pairwise fun first second =>
        spec'.releasedAt first < spec'.releasedAt second := by
      refine refines.sorted.imp_of_mem fun firstIn secondIn less => ?_
      rw [before _ (ne_of_mem_of_not_mem firstIn notIdle),
        before _ (ne_of_mem_of_not_mem secondIn notIdle)]
      exact less
    have sorted : (if handle ∈ cache.table.contents ∧ spec'.refs handle = 1 then idle ++ [handle]
        else idle).Pairwise fun first second =>
          spec'.releasedAt first < spec'.releasedAt second := by
      split
      · refine List.pairwise_append.mpr ⟨oldSorted, List.pairwise_singleton _ _,
          fun first firstIn second secondIn => ?_⟩
        rw [List.mem_singleton.mp secondIn, now, before _ (ne_of_mem_of_not_mem firstIn notIdle)]
        exact related.released_lt first
      · exact oldSorted
    have same := unref_sameData cache handle
    have relisted : Refines hash (cache.unref handle) spec' _ :=
      refines.relist same rfl rfl rfl rfl (refines.sound.unref dropped kept) sorted
    refine .some ⟨?_, rfl, fun entry => ?_, _, { relisted with sound := { relisted.sound with } }⟩
    · exact same.capacity ▸ related.positive
    · have later : spec'.clock = spec.clock + 1 := rfl
      rw [later]
      by_cases isHandle : entry = handle
      · rw [isHandle, now]
        exact Nat.lt_succ_self _
      · rw [before entry isHandle]
        exact (related.released_lt entry).trans (Nat.lt_succ_self _)
  · exact .none

theorem erase_clock (spec : CacheSpec κ ν) (key : κ) :
    (spec.erase key).releasedAt = spec.releasedAt ∧ (spec.erase key).clock = spec.clock ∧
      (spec.erase key).handles = spec.handles := by
  rw [CacheSpec.erase]
  split
  · exact ⟨rfl, rfl, rfl⟩
  · exact ⟨rfl, rfl, rfl⟩

omit [DecidableEq κ] in
/-- Entries leave both caches. -/
theorem Related.fewer (related : Related hash cache spec)
    (refines : ∃ idle, Refines hash cache' spec' idle) (same : SameEntries cache' cache)
    (kept : spec'.releasedAt = spec.releasedAt ∧ spec'.clock = spec.clock ∧
      spec'.handles = spec.handles) : Related hash cache' spec' := by
  obtain ⟨released, clock, handles⟩ := kept
  refine ⟨same.capacity ▸ related.positive, ?_, fun entry => ?_, refines⟩
  · rw [same.handles, handles, related.handles]
  · rw [released, clock]
    exact related.released_lt entry

/-- Every call is refused by both caches or does the same in both. -/
theorem Related.call (related : Related hash cache spec) (call : CacheCall κ ν) :
    Option.Rel (Related hash) (cache.call hash call) (spec.call call) := by
  obtain ⟨idle, refines⟩ := related.refines
  cases call with
  | insert key value charge => exact related.insert key value charge
  | lookup key => exact related.lookup key
  | release handle => exact related.release handle
  | erase key =>
    obtain ⟨idle', erased, same⟩ := refines.erase key
    exact .some (related.fewer ⟨idle', erased⟩ same (erase_clock spec key))
  | prune =>
    obtain ⟨idle', pruned, same, _⟩ := refines.prune spec.present.length
    have fuel : cache.table.elems = spec.present.length :=
      refines.valid.elems_eq.trans refines.present.length_eq
    rw [LRUCache.call, LRUCache.prune, fuel]
    exact .some (related.fewer ⟨idle', pruned⟩ same (prune_clock _ spec))

theorem Related.calls (related : Related hash cache spec) (calls : List (CacheCall κ ν)) :
    Option.Rel (Related hash) (calls.foldlM (LRUCache.call hash) cache)
      (calls.foldlM CacheSpec.call spec) := by
  induction calls generalizing cache spec with
  | nil => exact .some related
  | cons call rest inductionHypothesis =>
    rw [List.foldlM_cons, List.foldlM_cons]
    have step := related.call call
    generalize cache.call hash call = first at step ⊢
    generalize spec.call call = second at step ⊢
    cases step with
    | none => exact .none
    | some next => exact inductionHypothesis next

/-! ### What holds after every run -/

/-- The cache, after the calls that the abstract cache has seen as well, is as its comments say.
Sums of charges are those of `size_t`. -/
structure Correct (hash : κ → Nat) (cache : LRUCache κ ν) (spec : CacheSpec κ ν) : Prop where
  /-- The usage is the sum of the charges of the entries in the hash table. -/
  usage_eq : cache.usage = (cache.table.contents.map cache.chargeOf).sum % kSizeValues
  /-- Each of these entries is on exactly one list, and `lru_` is in the order of last releases. -/
  lists : ∃ idle busy, cache.links.Ring lru idle ∧ cache.links.Ring inUse busy ∧
    (∀ entry ∈ cache.table.contents,
      entry ∈ idle ∧ entry ∉ busy ∧ cache.entries.refs entry = 1 ∨
        entry ∉ idle ∧ entry ∈ busy ∧ 2 ≤ cache.entries.refs entry) ∧
    (∀ entry, entry ∈ idle ∨ entry ∈ busy → entry ∈ cache.table.contents) ∧
    idle.Pairwise fun first second => spec.releasedAt first < spec.releasedAt second
  /-- The entries in the hash table are those not displaced, erased or evicted. -/
  present : cache.table.contents.Perm spec.present
  lookup : ∀ key, (cache.lookup key (hash key)).1 = spec.find key
  value : ∀ entry ∈ spec.present, (cache.entries.value entry).value = (spec.item entry).value
  /-- After an insertion the charges fit or `lru_` is empty. -/
  insert_fits : ∀ key value charge, charge < kSizeValues →
    (cache.insert key (hash key) value charge).usage ≤ cache.capacity ∨
      (cache.insert key (hash key) value charge).links.next lru = lru
  /-- The deleter has run once for each entry without references, and for no other. -/
  deletions : ∀ entry, (cache.deletions.map Deletion.entry).count entry =
    if 2 ≤ entry ∧ entry < spec.next ∧ spec.refs entry = 0 then 1 else 0
  deletion_data : ∀ deletion ∈ cache.deletions,
    deletion.key = (spec.item deletion.entry).key ∧ deletion.value = (spec.item deletion.entry).value

theorem Related.correct (related : Related hash cache spec) : Correct hash cache spec := by
  obtain ⟨idle, refines⟩ := related.refines
  have sound := refines.sound
  obtain ⟨busy, busyRing, mem_busy⟩ := sound.lists.busyRing
  refine ⟨sound.usage_eq, ⟨idle, busy, sound.lists.idleRing, busyRing, fun entry member => ?_,
    fun entry listed => ?_, refines.sorted⟩, refines.present, fun key => ?_, fun entry member => ?_,
    fun key value charge fits => ?_, fun entry => ?_, fun deletion member => ?_⟩
  · have exists' := sound.lists.mem_entries entry member
    have positive := sound.lists.held entry member
    rw [sound.balanced.refs_eq entry exists', sound.lists.mem_idle, mem_busy]
    by_cases one : spec.refs entry = 1
    · refine Or.inl ⟨⟨member, one⟩, fun both => ?_, ?_⟩
      · omega
      · exact_mod_cast one
    · refine Or.inr ⟨fun both => one both.2, ⟨member, ?_⟩, ?_⟩
      · omega
      · exact_mod_cast (by omega : 2 ≤ spec.refs entry)
  · rcases listed with inIdle | inBusy
    · exact ((sound.lists.mem_idle entry).mp inIdle).1
    · exact ((mem_busy entry).mp inBusy).1
  · rw [LRUCache.lookup, refines.lookup_eq]
    cases spec.find key with
    | none => rfl
    | some entry => rfl
  · obtain ⟨large, less⟩ := refines.bounds member
    exact refines.value entry large less
  · obtain ⟨idle', inserted, _, ended⟩ :=
      refines.insert key value related.positive fits
    refine ended.imp_right fun empty => ?_
    rw [empty] at inserted
    exact inserted.sound.lists.idleRing.next_head_eq_iff.mpr rfl
  · rw [sound.deletions_count, refines.next]
    refine if_congr (and_congr_right fun _ => and_congr_right fun _ => ?_) rfl rfl
    constructor
    · exact fun gone => Nat.eq_zero_of_not_pos fun held => gone (sound.balanced.mem_of_pos entry held)
    · intro zero exists'
      have held := sound.used entry exists'
      rw [zero] at held
      exact lt_irrefl 0 held
  · have counted : 0 < (cache.deletions.map Deletion.entry).count deletion.entry :=
      List.count_pos_iff.mpr (List.mem_map_of_mem member)
    rw [sound.deletions_count, refines.next] at counted
    split at counted
    · rename_i all
      have data := sound.deletions_data deletion member
      have key := refines.key deletion.entry all.1 all.2.1
      rw [refines.value deletion.entry all.1 all.2.1] at data
      exact ⟨data.1.trans (congrArg Prod.fst key), data.2⟩
    · exact absurd counted (lt_irrefl 0)

end LRUCache

end LevelDb
