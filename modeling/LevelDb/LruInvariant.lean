/-
This file proves the invariant of the block cache: the reference counts are in balance, every entry
of the hash table is on exactly one of the two lists, the usage is the sum of the charges, and the
deleter has run for exactly the entries that are gone. What the cache holds, the references to it
and the order of the entries that only the cache refers to are parameters, since an operation
changes them one at a time.
-/

import LevelDb.LruCache

namespace LevelDb.LRUCache

variable {κ ν : Type}

/-! ### The two lists -/

/-- The entries of the hash table are on the list their references say: `lru_` when only the cache
refers to them and `in_use_` when clients do, too. No other entry is its own successor. -/
structure Lists (links : Lib.Links Nat) (entries : Finset Nat) (contents : List Nat)
    (refs : Nat → Nat) (idle : List Nat) : Prop where
  entry_ge : ∀ entry ∈ entries, 2 ≤ entry
  mem_entries : ∀ entry ∈ contents, entry ∈ entries
  held : ∀ entry ∈ contents, 0 < refs entry
  idleRing : links.Ring lru idle
  mem_idle : ∀ entry, entry ∈ idle ↔ entry ∈ contents ∧ refs entry = 1
  busyRing : ∃ busy, links.Ring inUse busy ∧ ∀ entry, entry ∈ busy ↔ entry ∈ contents ∧ 2 ≤ refs entry
  apart : ∀ entry ∈ entries, entry ∉ contents → links.next entry ≠ entry

variable {links : Lib.Links Nat} {entries : Finset Nat} {contents contents' idle idle' : List Nat}
  {refs refs' : Nat → Nat} {entry : Nat}

namespace Lists

theorem notMem_heads (lists : Lists links entries contents refs idle) (member : entry ∈ entries) :
    entry ≠ lru ∧ entry ≠ inUse := by
  have large := lists.entry_ge entry member
  rw [lru, inUse]
  omega

/-- The two lists have no node in common. -/
theorem disjoint (lists : Lists links entries contents refs idle) {busy : List Nat}
    (mem_busy : ∀ entry, entry ∈ busy ↔ entry ∈ contents ∧ 2 ≤ refs entry) :
    (lru :: idle).Disjoint (inUse :: busy) := by
  intro place inIdle inBusy
  rcases List.mem_cons.mp inIdle with isLru | idleMember
  · rcases List.mem_cons.mp inBusy with isInUse | busyMember
    · rw [isLru] at isInUse
      exact absurd isInUse (by decide)
    · have member := lists.mem_entries place ((mem_busy place).mp busyMember).1
      exact (lists.notMem_heads member).1 isLru
  · obtain ⟨member, one⟩ := (lists.mem_idle place).mp idleMember
    rcases List.mem_cons.mp inBusy with isInUse | busyMember
    · exact (lists.notMem_heads (lists.mem_entries place member)).2 isInUse
    · have two := ((mem_busy place).mp busyMember).2
      omega

/-- An entry that is not in the table is not on a list. -/
theorem outside (lists : Lists links entries contents refs idle) (member : entry ∈ entries)
    (notIn : entry ∉ contents) {busy : List Nat}
    (mem_busy : ∀ entry, entry ∈ busy ↔ entry ∈ contents ∧ 2 ≤ refs entry) :
    entry ∉ lru :: idle ∧ entry ∉ inUse :: busy := by
  constructor
  · intro inIdle
    rcases List.mem_cons.mp inIdle with isLru | idleMember
    · exact (lists.notMem_heads member).1 isLru
    · exact notIn ((lists.mem_idle entry).mp idleMember).1
  · intro inBusy
    rcases List.mem_cons.mp inBusy with isInUse | busyMember
    · exact (lists.notMem_heads member).2 isInUse
    · exact notIn ((mem_busy entry).mp busyMember).1

theorem perm (lists : Lists links entries contents refs idle) (perm : contents'.Perm contents) :
    Lists links entries contents' refs idle := by
  obtain ⟨busy, busyRing, mem_busy⟩ := lists.busyRing
  exact ⟨lists.entry_ge, fun entry member => lists.mem_entries entry (perm.mem_iff.mp member),
    fun entry member => lists.held entry (perm.mem_iff.mp member), lists.idleRing,
    fun entry => (lists.mem_idle entry).trans (and_congr_left fun _ => perm.mem_iff.symm),
    ⟨busy, busyRing, fun entry =>
      (mem_busy entry).trans (and_congr_left fun _ => perm.mem_iff.symm)⟩,
    fun entry member notIn => lists.apart entry member fun old => notIn (perm.mem_iff.mpr old)⟩

/-- An entry that is not on a list may go. -/
theorem free (lists : Lists links entries contents refs idle) (notIn : entry ∉ contents) :
    Lists links (entries.erase entry) contents refs idle :=
  ⟨fun other member => lists.entry_ge other (Finset.mem_of_mem_erase member),
    fun other member => Finset.mem_erase.mpr ⟨ne_of_mem_of_not_mem member notIn,
      lists.mem_entries other member⟩, lists.held, lists.idleRing, lists.mem_idle, lists.busyRing,
    fun other member outside => lists.apart other (Finset.mem_of_mem_erase member) outside⟩

/-- Counts that stay on their side of one reference do not change the lists. -/
theorem recount (lists : Lists links entries contents refs idle)
    (same : ∀ entry ∈ contents, refs' entry = refs entry ∨ 2 ≤ refs' entry ∧ 2 ≤ refs entry) :
    Lists links entries contents refs' idle := by
  obtain ⟨busy, busyRing, mem_busy⟩ := lists.busyRing
  refine ⟨lists.entry_ge, lists.mem_entries, fun entry member => ?_, lists.idleRing,
    fun entry => ?_, ⟨busy, busyRing, fun entry => ?_⟩, lists.apart⟩
  · have old := lists.held entry member
    rcases same entry member with equal | large
    · omega
    · omega
  · rw [lists.mem_idle]
    refine and_congr_right fun member => ?_
    rcases same entry member with equal | large
    · rw [equal]
    · omega
  · rw [mem_busy]
    refine and_congr_right fun member => ?_
    rcases same entry member with equal | large
    · rw [equal]
    · omega

/-- An entry that a client takes is moved from `lru_` to `in_use_`. -/
theorem pin (lists : Lists links entries contents refs idle) (member : entry ∈ idle)
    (new : 2 ≤ refs' entry) (others : ∀ other, other ≠ entry → refs' other = refs other) :
    Lists ((links.remove entry).append inUse entry) entries contents refs' (idle.erase entry) := by
  obtain ⟨busy, busyRing, mem_busy⟩ := lists.busyRing
  obtain ⟨inContents, one⟩ := (lists.mem_idle entry).mp member
  obtain ⟨idleRing, busyRing'⟩ := lists.idleRing.move member busyRing (lists.disjoint mem_busy)
  refine ⟨lists.entry_ge, lists.mem_entries, fun other otherMember => ?_, idleRing, fun other => ?_,
    ⟨busy ++ [entry], busyRing', fun other => ?_⟩, fun other otherMember notIn => ?_⟩
  · by_cases same : other = entry
    · rw [same]
      omega
    · rw [others other same]
      exact lists.held other otherMember
  · rw [lists.idleRing.members_nodup.mem_erase_iff, lists.mem_idle]
    by_cases same : other = entry
    · rw [same]
      exact iff_of_false (fun both => both.1 rfl) fun both => by omega
    · rw [others other same]
      exact and_iff_right same
  · rw [List.mem_append, List.mem_singleton, mem_busy]
    by_cases same : other = entry
    · rw [same]
      exact iff_of_true (Or.inr rfl) ⟨inContents, new⟩
    · rw [others other same]
      exact or_iff_left same
  · obtain ⟨outIdle, outBusy⟩ := lists.outside otherMember notIn mem_busy
    rw [lists.idleRing.move_next_outside member busyRing (lists.disjoint mem_busy) outIdle outBusy]
    exact lists.apart other otherMember notIn

/-- An entry that its last client gives back becomes the newest one of `lru_`. -/
theorem unpin (lists : Lists links entries contents refs idle) (member : entry ∈ contents)
    (old : 2 ≤ refs entry) (new : refs' entry = 1)
    (others : ∀ other, other ≠ entry → refs' other = refs other) :
    Lists ((links.remove entry).append lru entry) entries contents refs' (idle ++ [entry]) := by
  obtain ⟨busy, busyRing, mem_busy⟩ := lists.busyRing
  have inBusy : entry ∈ busy := (mem_busy entry).mpr ⟨member, old⟩
  have apart := (lists.disjoint mem_busy).symm
  obtain ⟨busyRing', idleRing⟩ := busyRing.move inBusy lists.idleRing apart
  refine ⟨lists.entry_ge, lists.mem_entries, fun other otherMember => ?_, idleRing, fun other => ?_,
    ⟨busy.erase entry, busyRing', fun other => ?_⟩, fun other otherMember notIn => ?_⟩
  · by_cases same : other = entry
    · rw [same]
      omega
    · rw [others other same]
      exact lists.held other otherMember
  · rw [List.mem_append, List.mem_singleton, lists.mem_idle]
    by_cases same : other = entry
    · rw [same]
      exact iff_of_true (Or.inr rfl) ⟨member, new⟩
    · rw [others other same]
      exact or_iff_left same
  · rw [busyRing.members_nodup.mem_erase_iff, mem_busy]
    by_cases same : other = entry
    · rw [same]
      exact iff_of_false (fun both => both.1 rfl) fun both => by omega
    · rw [others other same]
      exact and_iff_right same
  · obtain ⟨outIdle, outBusy⟩ := lists.outside otherMember notIn mem_busy
    rw [busyRing.move_next_outside inBusy lists.idleRing apart outBusy outIdle]
    exact lists.apart other otherMember notIn

/-- An entry that is taken out of the table leaves its list. -/
theorem detach (lists : Lists links entries contents refs idle)
    (split : contents.Perm (entry :: contents')) (nodup : contents.Nodup) :
    Lists (links.remove entry) entries contents' refs (idle.erase entry) := by
  obtain ⟨busy, busyRing, mem_busy⟩ := lists.busyRing
  have member : entry ∈ contents := split.mem_iff.mpr List.mem_cons_self
  have gone : entry ∉ contents' := (List.nodup_cons.mp (split.nodup_iff.mp nodup)).1
  have mem_rest : ∀ other, other ∈ contents' ↔ other ∈ contents ∧ other ≠ entry := by
    intro other
    rw [split.mem_iff, List.mem_cons]
    constructor
    · intro inRest
      exact ⟨Or.inr inRest, ne_of_mem_of_not_mem inRest gone⟩
    · rintro ⟨same | inRest, different⟩
      · exact absurd same different
      · exact inRest
  have apart := lists.disjoint mem_busy
  have mem_idle : ∀ other, other ∈ idle.erase entry ↔ other ∈ contents' ∧ refs other = 1 := by
    intro other
    rw [lists.idleRing.members_nodup.mem_erase_iff, lists.mem_idle, mem_rest]
    tauto
  have entries' : ∀ other ∈ contents', other ∈ entries := fun other inRest =>
    lists.mem_entries other ((mem_rest other).mp inRest).1
  have held : ∀ other ∈ contents', 0 < refs other := fun other inRest =>
    lists.held other ((mem_rest other).mp inRest).1
  by_cases one : refs entry = 1
  · have inIdle : entry ∈ idle := (lists.mem_idle entry).mpr ⟨member, one⟩
    refine ⟨lists.entry_ge, entries', held, lists.idleRing.remove inIdle, mem_idle,
      ⟨busy, lists.idleRing.remove_frame inIdle busyRing apart, fun other => ?_⟩,
      fun other otherMember notIn => ?_⟩
    · rw [mem_busy, mem_rest, and_assoc]
      refine and_congr_right fun _ => ⟨fun two => ⟨fun same => ?_, two⟩, fun both => both.2⟩
      rw [same, one] at two
      exact absurd two (by decide)
    · by_cases same : other = entry
      · rw [same, Lib.Links.remove_next, if_neg (lists.idleRing.prev_ne_self inIdle).symm]
        exact lists.idleRing.next_ne_self inIdle
      · have notOld : other ∉ contents := fun old => notIn ((mem_rest other).mpr ⟨old, same⟩)
        obtain ⟨outIdle, _⟩ := lists.outside otherMember notOld mem_busy
        rw [lists.idleRing.remove_next_outside inIdle outIdle]
        exact lists.apart other otherMember notOld
  · have notIdle : entry ∉ idle := fun inIdle => one ((lists.mem_idle entry).mp inIdle).2
    have two : 2 ≤ refs entry := by
      have positive := lists.held entry member
      omega
    have inBusy : entry ∈ busy := (mem_busy entry).mpr ⟨member, two⟩
    have idleKept := busyRing.remove_frame inBusy lists.idleRing apart.symm
    refine ⟨lists.entry_ge, entries', held, ?_, mem_idle,
      ⟨busy.erase entry, busyRing.remove inBusy, fun other => ?_⟩,
      fun other otherMember notIn => ?_⟩
    · rwa [List.erase_of_not_mem notIdle]
    · rw [busyRing.members_nodup.mem_erase_iff, mem_busy, mem_rest]
      tauto
    · by_cases same : other = entry
      · rw [same, Lib.Links.remove_next, if_neg (busyRing.prev_ne_self inBusy).symm]
        exact busyRing.next_ne_self inBusy
      · have notOld : other ∉ contents := fun old => notIn ((mem_rest other).mpr ⟨old, same⟩)
        obtain ⟨_, outBusy⟩ := lists.outside otherMember notOld mem_busy
        rw [busyRing.remove_next_outside inBusy outBusy]
        exact lists.apart other otherMember notOld

/-- A new entry, with a reference of the cache and one of a client, starts on `in_use_`. -/
theorem attach (lists : Lists links entries contents refs idle) (fresh : entry ∉ entries)
    (large : 2 ≤ entry) (new : refs' entry = 2)
    (others : ∀ other, other ≠ entry → refs' other = refs other) :
    Lists (links.append inUse entry) (Insert.insert entry entries) (entry :: contents) refs' idle := by
  obtain ⟨busy, busyRing, mem_busy⟩ := lists.busyRing
  have notContents : entry ∉ contents := fun member => fresh (lists.mem_entries entry member)
  have heads : entry ≠ lru ∧ entry ≠ inUse := by
    rw [lru, inUse]
    omega
  have outBusy : entry ∉ inUse :: busy := fun inBusy =>
    (List.mem_cons.mp inBusy).elim heads.2 fun member => notContents ((mem_busy entry).mp member).1
  have outIdle : entry ∉ lru :: idle := fun inIdle =>
    (List.mem_cons.mp inIdle).elim heads.1 fun member =>
      notContents ((lists.mem_idle entry).mp member).1
  have apart := (lists.disjoint mem_busy).symm
  have old : ∀ other ∈ contents, refs' other = refs other := fun other member =>
    others other (ne_of_mem_of_not_mem member notContents)
  refine ⟨fun other member => ?_, fun other member => ?_, fun other member => ?_,
    busyRing.append_frame outBusy lists.idleRing outIdle apart, fun other => ?_,
    ⟨busy ++ [entry], busyRing.append outBusy, fun other => ?_⟩, fun other member notIn => ?_⟩
  · rcases Finset.mem_insert.mp member with rfl | isOld
    · exact large
    · exact lists.entry_ge other isOld
  · rcases List.mem_cons.mp member with rfl | isOld
    · exact Finset.mem_insert_self _ _
    · exact Finset.mem_insert_of_mem (lists.mem_entries other isOld)
  · rcases List.mem_cons.mp member with rfl | isOld
    · omega
    · rw [old other isOld]
      exact lists.held other isOld
  · rw [lists.mem_idle, List.mem_cons]
    by_cases same : other = entry
    · rw [same]
      exact iff_of_false (fun both => notContents both.1) fun both => by omega
    · rw [others other same, or_iff_right same]
  · rw [List.mem_append, List.mem_singleton, mem_busy, List.mem_cons]
    by_cases same : other = entry
    · rw [same]
      exact iff_of_true (Or.inr rfl) ⟨Or.inl rfl, new.ge⟩
    · rw [others other same, or_iff_left same, or_iff_right same]
  · have different : other ≠ entry := fun same => notIn (same ▸ List.mem_cons_self)
    have isOld := (Finset.mem_insert.mp member).resolve_left different
    have notOld : other ∉ contents := fun inOld => notIn (List.mem_cons_of_mem _ inOld)
    rw [busyRing.append_next_outside (lists.outside isOld notOld mem_busy).2 different]
    exact lists.apart other isOld notOld

end Lists

/-! ### The invariant -/

def chargeOf (cache : LRUCache κ ν) (entry : Nat) : Nat := (cache.entries.value entry).charge

/-- The invariant of a cache that holds `contents`. -/
structure Sound (cache : LRUCache κ ν) (contents : List Nat) (refs : Nat → Nat) (idle : List Nat) :
    Prop where
  balanced : cache.entries.Balanced refs
  used : cache.entries.Used refs
  next_ge : 2 ≤ cache.nextAddress
  entry_lt : ∀ entry ∈ cache.entries.numbers, entry < cache.nextAddress
  lists : Lists cache.links cache.entries.numbers contents refs idle
  inCache : ∀ entry ∈ cache.entries.numbers,
    ((cache.entries.value entry).inCache = true ↔ entry ∈ contents)
  nodup : contents.Nodup
  usage_eq : cache.usage = (contents.map cache.chargeOf).sum % kSizeValues
  charge_lt : ∀ entry ∈ cache.entries.numbers, cache.chargeOf entry < kSizeValues
  deletions_count : ∀ entry, (cache.deletions.map Deletion.entry).count entry =
    if 2 ≤ entry ∧ entry < cache.nextAddress ∧ entry ∉ cache.entries.numbers then 1 else 0
  deletions_data : ∀ deletion ∈ cache.deletions,
    deletion.key = (cache.entries.value deletion.entry).key ∧
      deletion.value = (cache.entries.value deletion.entry).value

/-- What no operation changes of a cache and of the entries it has. -/
structure SameEntries (cache' cache : LRUCache κ ν) : Prop where
  capacity : cache'.capacity = cache.capacity
  nextAddress : cache'.nextAddress = cache.nextAddress
  handles : cache'.handles = cache.handles
  key : ∀ entry, (cache'.entries.value entry).key = (cache.entries.value entry).key
  hash : ∀ entry, (cache'.entries.value entry).hash = (cache.entries.value entry).hash
  value : ∀ entry, (cache'.entries.value entry).value = (cache.entries.value entry).value
  charge : ∀ entry, (cache'.entries.value entry).charge = (cache.entries.value entry).charge

/-- What the lists and the counts do not touch. -/
structure SameData (cache' cache : LRUCache κ ν) : Prop extends SameEntries cache' cache where
  table : cache'.table = cache.table

variable {cache cache' : LRUCache κ ν}

theorem SameEntries.refl (cache : LRUCache κ ν) : SameEntries cache cache :=
  ⟨rfl, rfl, rfl, fun _ => rfl, fun _ => rfl, fun _ => rfl, fun _ => rfl⟩

theorem SameEntries.trans {cache'' : LRUCache κ ν} (second : SameEntries cache'' cache')
    (first : SameEntries cache' cache) : SameEntries cache'' cache :=
  ⟨second.capacity.trans first.capacity, second.nextAddress.trans first.nextAddress,
    second.handles.trans first.handles,
    fun entry => (second.key entry).trans (first.key entry),
    fun entry => (second.hash entry).trans (first.hash entry),
    fun entry => (second.value entry).trans (first.value entry),
    fun entry => (second.charge entry).trans (first.charge entry)⟩

theorem SameEntries.info (same : SameEntries cache' cache) : cache'.info = cache.info := by
  funext entry
  rw [LRUCache.info, LRUCache.info, same.key, same.hash]

theorem SameEntries.chargeOf (same : SameEntries cache' cache) : cache'.chargeOf = cache.chargeOf :=
  funext same.charge

theorem sameData_of_value (capacity : cache'.capacity = cache.capacity)
    (nextAddress : cache'.nextAddress = cache.nextAddress) (table : cache'.table = cache.table)
    (handles : cache'.handles = cache.handles)
    (value : ∀ entry, cache'.entries.value entry = cache.entries.value entry) :
    SameData cache' cache :=
  ⟨⟨capacity, nextAddress, handles, fun entry => by rw [value], fun entry => by rw [value],
    fun entry => by rw [value], fun entry => by rw [value]⟩, table⟩

/-- The order of the contents does not matter. -/
theorem Sound.perm (sound : cache.Sound contents refs idle) (perm : contents'.Perm contents) :
    cache.Sound contents' refs idle :=
  ⟨sound.balanced, sound.used, sound.next_ge, sound.entry_lt, sound.lists.perm perm,
    fun entry member => (sound.inCache entry member).trans perm.mem_iff.symm,
    perm.nodup_iff.mpr sound.nodup, sound.usage_eq.trans (by rw [(perm.map _).sum_eq]),
    sound.charge_lt, sound.deletions_count, sound.deletions_data⟩

/-- The invariant after counts and lists changed, but neither entries nor the contents. -/
theorem Sound.relist (sound : cache.Sound contents refs idle) (same : SameData cache' cache)
    (balanced : cache'.entries.Balanced refs') (used : cache'.entries.Used refs')
    (numbers : cache'.entries.numbers = cache.entries.numbers)
    (lists : Lists cache'.links cache.entries.numbers contents refs' idle')
    (inCache : ∀ entry, (cache'.entries.value entry).inCache = (cache.entries.value entry).inCache)
    (usage : cache'.usage = cache.usage) (deletions : cache'.deletions = cache.deletions) :
    cache'.Sound contents refs' idle' := by
  refine ⟨balanced, used, same.nextAddress ▸ sound.next_ge, fun entry member => ?_, numbers ▸ lists,
    fun entry member => ?_, sound.nodup, ?_, fun entry member => ?_, fun entry => ?_,
    fun deletion member => ?_⟩
  · rw [same.nextAddress]
    exact sound.entry_lt entry (numbers ▸ member)
  · rw [inCache]
    exact sound.inCache entry (numbers ▸ member)
  · rw [usage, same.chargeOf]
    exact sound.usage_eq
  · rw [same.chargeOf]
    exact sound.charge_lt entry (numbers ▸ member)
  · rw [deletions, same.nextAddress, numbers]
    exact sound.deletions_count entry
  · rw [same.key, same.value]
    exact sound.deletions_data deletion (deletions ▸ member)

/-! ### References -/

theorem ref_sameData (cache : LRUCache κ ν) (entry : Nat) : SameData (cache.ref entry) cache := by
  rw [ref]
  split
  · exact sameData_of_value rfl rfl rfl rfl fun other => Lib.Heap.ref_value _ _ _
  · exact sameData_of_value rfl rfl rfl rfl fun other => Lib.Heap.ref_value _ _ _

/-- A client takes a reference to an entry of the table, which leaves the idle list. -/
theorem Sound.ref (sound : cache.Sound contents refs idle) (member : entry ∈ contents)
    (taken : ∀ other, refs' other = refs other + if other = entry then 1 else 0) :
    (cache.ref entry).Sound contents refs' (idle.erase entry) := by
  have exists' := sound.lists.mem_entries entry member
  have balanced := sound.balanced.ref exists' taken
  have numbers : (cache.entries.ref entry).numbers = cache.entries.numbers :=
    Finset.insert_eq_of_mem exists'
  have used : (cache.entries.ref entry).Used refs' := by
    intro other otherMember
    rw [numbers] at otherMember
    rw [taken]
    exact Nat.add_pos_left (sound.used other otherMember) _
  have more : refs' entry = refs entry + 1 := by rw [taken, if_pos rfl]
  have others : ∀ other, other ≠ entry → refs' other = refs other := by
    intro other different
    rw [taken, if_neg different, Nat.add_zero]
  have count := sound.balanced.refs_eq entry exists'
  have value : ∀ other, ((cache.entries.ref entry).value other).inCache =
      (cache.entries.value other).inCache := fun other => by rw [Lib.Heap.ref_value]
  have isHeld := sound.lists.held entry member
  have same := ref_sameData cache entry
  rw [LRUCache.ref] at same ⊢
  split
  · rename_i isIdle
    rw [if_pos isIdle] at same
    have one : refs entry = 1 := by
      rw [count] at isIdle
      exact_mod_cast isIdle.1
    have inIdle := (sound.lists.mem_idle entry).mpr ⟨member, one⟩
    exact sound.relist same balanced used numbers (sound.lists.pin inIdle (by omega) others) value
      rfl rfl
  · rename_i isBusy
    rw [if_neg isBusy] at same
    have notOne : refs entry ≠ 1 := by
      intro one
      refine isBusy ⟨?_, (sound.inCache entry exists').mpr member⟩
      rw [count, one]
      rfl
    have notIdle : entry ∉ idle := fun inIdle =>
      notOne ((sound.lists.mem_idle entry).mp inIdle).2
    rw [List.erase_of_not_mem notIdle]
    refine sound.relist same balanced used numbers (sound.lists.recount fun other _ => ?_) value
      rfl rfl
    by_cases isEntry : other = entry
    · rw [isEntry]
      omega
    · exact Or.inl (others other isEntry)

theorem unref_sameData (cache : LRUCache κ ν) (entry : Nat) : SameData (cache.unref entry) cache := by
  rw [unref]
  split
  · exact sameData_of_value rfl rfl rfl rfl fun other => Lib.Heap.unref_value _ _ _
  · split
    · exact sameData_of_value rfl rfl rfl rfl fun other => Lib.Heap.unref_value _ _ _
    · exact sameData_of_value rfl rfl rfl rfl fun other => Lib.Heap.unref_value _ _ _

/-- A reference is dropped that is not the one of the cache. The last one goes with the entry, and
the last one of a client makes the entry the newest idle one. -/
theorem Sound.unref (sound : cache.Sound contents refs idle)
    (dropped : ∀ other, refs other = refs' other + if other = entry then 1 else 0)
    (kept : entry ∈ contents → 0 < refs' entry) :
    (cache.unref entry).Sound contents refs'
      (if entry ∈ contents ∧ refs' entry = 1 then idle ++ [entry] else idle) := by
  have fewer : refs entry = refs' entry + 1 := by rw [dropped, if_pos rfl]
  have others : ∀ other, other ≠ entry → refs' other = refs other := by
    intro other different
    rw [dropped, if_neg different, Nat.add_zero]
  have exists' : entry ∈ cache.entries.numbers :=
    sound.balanced.mem_of_pos entry (fewer ▸ Nat.succ_pos _)
  have balanced := sound.balanced.unref exists' dropped
  have numbers : (cache.entries.unref entry).numbers = cache.entries.numbers :=
    Finset.insert_eq_of_mem exists'
  have count : (cache.entries.unref entry).refs entry = refs' entry :=
    balanced.refs_eq entry (numbers ▸ exists')
  have value : ∀ other, ((cache.entries.unref entry).value other).inCache =
      (cache.entries.value other).inCache := fun other => by rw [Lib.Heap.unref_value]
  have same := unref_sameData cache entry
  rw [LRUCache.unref] at same ⊢
  split
  · rename_i isFree
    rw [if_pos isFree] at same
    have zero : refs' entry = 0 := by
      rw [count] at isFree
      exact_mod_cast isFree
    have notIn : entry ∉ contents := fun member => (kept member).ne' zero
    rw [if_neg fun both => notIn both.1]
    have erased : (Lib.Shelf.remove (cache.entries.unref entry) entry).numbers =
        cache.entries.numbers.erase entry := congrArg (Finset.erase · entry) numbers
    have old : ∀ other ∈ (Lib.Shelf.remove (cache.entries.unref entry) entry).numbers,
        other ≠ entry ∧ other ∈ cache.entries.numbers := by
      intro other otherMember
      rw [erased] at otherMember
      exact Finset.mem_erase.mp otherMember
    have lists : Lists cache.links cache.entries.numbers contents refs' idle :=
      sound.lists.recount fun other member => Or.inl (others other
        (ne_of_mem_of_not_mem member notIn))
    refine ⟨balanced.remove zero, fun other otherMember => ?_, sound.next_ge,
      fun other otherMember => sound.entry_lt other (old other otherMember).2,
      erased ▸ lists.free notIn, fun other otherMember => ?_, sound.nodup, ?_,
      fun other otherMember => ?_, fun other => ?_, fun deletion member => ?_⟩
    · obtain ⟨different, otherMember⟩ := old other otherMember
      rw [others other different]
      exact sound.used other otherMember
    · exact (iff_of_eq (congrArg (· = true) (value other))).trans
        (sound.inCache other (old other otherMember).2)
    · rw [same.chargeOf]
      exact sound.usage_eq
    · rw [same.chargeOf]
      exact sound.charge_lt other (old other otherMember).2
    · have fresh : (cache.deletions.map Deletion.entry).count entry = 0 := by
        rw [sound.deletions_count, if_neg fun all => all.2.2 exists']
      have gone : other ∈ (Lib.Shelf.remove (cache.entries.unref entry) entry).numbers ↔
          other ≠ entry ∧ other ∈ cache.entries.numbers := by
        rw [erased, Finset.mem_erase]
      rw [List.map_append, List.count_append, List.map_singleton, Lib.Heap.count_cons,
        List.count_nil, Nat.zero_add]
      by_cases isEntry : other = entry
      · rw [isEntry] at gone ⊢
        rw [fresh, if_pos rfl]
        exact (if_pos ⟨sound.lists.entry_ge entry exists', sound.entry_lt entry exists',
          fun member => (gone.mp member).1 rfl⟩).symm
      · rw [if_neg isEntry, Nat.add_zero, sound.deletions_count]
        refine if_congr (and_congr_right fun _ => and_congr_right fun _ => ?_) rfl rfl
        rw [gone]
        exact not_congr (and_iff_right isEntry).symm
    · rw [same.key, same.value]
      rcases List.mem_append.mp member with isOld | isNew
      · exact sound.deletions_data deletion isOld
      · rw [List.mem_singleton.mp isNew]
        exact ⟨rfl, rfl⟩
  · rename_i notFree
    rw [if_neg notFree] at same
    have positive : refs' entry ≠ 0 := by
      rw [count] at notFree
      exact_mod_cast notFree
    have used : (cache.entries.unref entry).Used refs' := by
      intro other otherMember
      rw [numbers] at otherMember
      by_cases isEntry : other = entry
      · rw [isEntry]
        exact Nat.pos_of_ne_zero positive
      · rw [others other isEntry]
        exact sound.used other otherMember
    split
    · rename_i becomesIdle
      rw [if_pos becomesIdle] at same
      have member : entry ∈ contents := (sound.inCache entry exists').mp becomesIdle.1
      have one : refs' entry = 1 := by
        have isOne := becomesIdle.2
        rw [count] at isOne
        exact_mod_cast isOne
      rw [if_pos ⟨member, one⟩]
      exact sound.relist same balanced used numbers
        (sound.lists.unpin member (by omega) one others) value rfl rfl
    · rename_i staysBusy
      rw [if_neg staysBusy] at same
      have notOne : ¬(entry ∈ contents ∧ refs' entry = 1) := by
        rintro ⟨member, one⟩
        refine staysBusy ⟨(sound.inCache entry exists').mpr member, ?_⟩
        rw [count, one]
        rfl
      rw [if_neg notOne]
      refine sound.relist same balanced used numbers (sound.lists.recount fun other member => ?_)
        value rfl rfl
      by_cases isEntry : other = entry
      · rw [isEntry] at member ⊢
        have ne : refs' entry ≠ 1 := fun one => notOne ⟨member, one⟩
        omega
      · exact Or.inl (others other isEntry)

/-! ### Entries that leave and enter the table -/

/-- The cache gives an entry up. -/
def giveUp (cache : LRUCache κ ν) (entry : Nat) : LRUCache κ ν :=
  { cache with
    links := cache.links.remove entry
    entries := cache.entries.put entry
      ⟨cache.entries.refs entry, { cache.entries.value entry with inCache := false }⟩
    usage := (cache.usage + (kSizeValues - (cache.entries.value entry).charge)) % kSizeValues }

theorem giveUp_value (cache : LRUCache κ ν) (entry other : Nat) :
    (cache.giveUp entry).entries.value other =
      if other = entry then { cache.entries.value entry with inCache := false }
      else cache.entries.value other := by
  rw [Lib.Heap.value, giveUp]
  split
  · rename_i same
    rw [same, Lib.Shelf.put_file_self]
  · rename_i different
    rw [Lib.Shelf.put_file_of_ne _ different]
    rfl

theorem giveUp_sameData (cache : LRUCache κ ν) (entry : Nat) :
    SameData (cache.giveUp entry) cache := by
  refine ⟨⟨rfl, rfl, rfl, fun other => ?_, fun other => ?_, fun other => ?_, fun other => ?_⟩, rfl⟩
  all_goals
    rw [giveUp_value]
    split
    · rename_i same
      rw [same]
    · rfl

theorem finishErase_sameData (cache : LRUCache κ ν) (entry : Nat) :
    SameData (cache.finishErase entry) cache :=
  ⟨(unref_sameData _ entry).toSameEntries.trans (giveUp_sameData cache entry).toSameEntries,
    (unref_sameData _ entry).table.trans (giveUp_sameData cache entry).table⟩

/-- Subtraction in `size_t`. -/
theorem sub_charge {sum charge : Nat} (fits : charge < kSizeValues) :
    ((charge + sum) % kSizeValues + (kSizeValues - charge)) % kSizeValues = sum % kSizeValues := by
  rw [Nat.mod_add_mod]
  have same : charge + sum + (kSizeValues - charge) = sum + kSizeValues := by omega
  rw [same, Nat.add_mod_right]

/-- An entry that is taken out of the table leaves its list, and its charge is given back. -/
theorem Sound.giveUp (sound : cache.Sound contents refs idle)
    (split : contents.Perm (entry :: contents')) :
    (cache.giveUp entry).Sound contents' refs (idle.erase entry) := by
  have member : entry ∈ contents := split.mem_iff.mpr List.mem_cons_self
  have exists' := sound.lists.mem_entries entry member
  obtain ⟨gone, nodup⟩ := List.nodup_cons.mp (split.nodup_iff.mp sound.nodup)
  have same := giveUp_sameData cache entry
  have numbers : (cache.giveUp entry).entries.numbers = cache.entries.numbers :=
    Finset.insert_eq_of_mem exists'
  have mem_rest : ∀ other, other ≠ entry → (other ∈ contents ↔ other ∈ contents') := by
    intro other different
    rw [split.mem_iff, List.mem_cons, or_iff_right different]
  refine ⟨sound.balanced.put _ (sound.balanced.refs_eq entry exists').symm fun _ _ => rfl,
    fun other otherMember => sound.used other (numbers ▸ otherMember), sound.next_ge,
    fun other otherMember => sound.entry_lt other (numbers ▸ otherMember),
    numbers ▸ sound.lists.detach split sound.nodup, fun other otherMember => ?_, nodup, ?_,
    fun other otherMember => ?_, fun other => ?_, fun deletion isDeleted => ?_⟩
  · rw [giveUp_value]
    split_ifs with isEntry
    · rw [isEntry]
      exact iff_of_false not_false gone
    · rw [← mem_rest other isEntry]
      exact sound.inCache other (numbers ▸ otherMember)
  · have fits := sound.charge_lt entry exists'
    have sum : cache.usage = (cache.chargeOf entry + (contents'.map cache.chargeOf).sum) %
        kSizeValues := by
      rw [sound.usage_eq, (split.map _).sum_eq, List.map_cons, List.sum_cons]
    have result : (cache.giveUp entry).usage =
        (cache.usage + (kSizeValues - cache.chargeOf entry)) % kSizeValues := rfl
    rw [result, sum, sub_charge fits, same.chargeOf]
  · rw [same.chargeOf]
    exact sound.charge_lt other (numbers ▸ otherMember)
  · rw [numbers]
    exact sound.deletions_count other
  · rw [same.key, same.value]
    exact sound.deletions_data deletion isDeleted

/-- What `FinishErase` takes out also loses the reference of the cache. -/
theorem Sound.finishErase (sound : cache.Sound contents refs idle)
    (split : contents.Perm (entry :: contents'))
    (dropped : ∀ other, refs other = refs' other + if other = entry then 1 else 0) :
    (cache.finishErase entry).Sound contents' refs' (idle.erase entry) := by
  have gone : entry ∉ contents' := (List.nodup_cons.mp (split.nodup_iff.mp sound.nodup)).1
  have finished := (sound.giveUp split).unref dropped fun member => absurd member gone
  rw [if_neg fun both => gone both.1] at finished
  exact finished

theorem link_value_new (cache : LRUCache κ ν) (key : κ) (hash : Nat) (value : ν) (charge : Nat) :
    (cache.link key hash value charge).entries.value cache.nextAddress =
      ⟨key, hash, value, charge, true⟩ := by
  rw [Lib.Heap.value, LRUCache.link, Lib.Shelf.put_file_self]

theorem link_value (cache : LRUCache κ ν) (key : κ) (hash : Nat) (value : ν) (charge : Nat)
    {other : Nat} (different : other ≠ cache.nextAddress) :
    (cache.link key hash value charge).entries.value other = cache.entries.value other := by
  rw [Lib.Heap.value, LRUCache.link, Lib.Shelf.put_file_of_ne _ different]
  rfl

/-- A new entry enters the cache. -/
theorem Sound.link (sound : cache.Sound contents refs idle) {key : κ} {hash charge : Nat}
    {value : ν} (fits : charge < kSizeValues) (new : refs' cache.nextAddress = 2)
    (others : ∀ other, other ≠ cache.nextAddress → refs' other = refs other) :
    (cache.link key hash value charge).Sound (cache.nextAddress :: contents) refs' idle := by
  have fresh : cache.nextAddress ∉ cache.entries.numbers := fun member =>
    lt_irrefl _ (sound.entry_lt _ member)
  have notIn : cache.nextAddress ∉ contents := fun member =>
    fresh (sound.lists.mem_entries _ member)
  set entries := (cache.link key hash value charge).entries with entriesEq
  have newValue : entries.value cache.nextAddress = ⟨key, hash, value, charge, true⟩ :=
    link_value_new cache key hash value charge
  have oldValue : ∀ other, other ≠ cache.nextAddress →
      entries.value other = cache.entries.value other := fun other different =>
    link_value cache key hash value charge different
  have numbers : entries.numbers = Insert.insert cache.nextAddress cache.entries.numbers := rfl
  have oldMember : ∀ other ∈ entries.numbers, other ≠ cache.nextAddress →
      other ∈ cache.entries.numbers := by
    intro other member different
    rw [numbers] at member
    exact (Finset.mem_insert.mp member).resolve_left different
  refine ⟨?_, fun other member => ?_, sound.next_ge.trans (Nat.le_succ _), fun other member => ?_,
    numbers ▸ sound.lists.attach fresh sound.next_ge new others, fun other member => ?_,
    List.nodup_cons.mpr ⟨notIn, sound.nodup⟩, ?_, fun other member => ?_, fun other => ?_,
    fun deletion member => ?_⟩
  · exact sound.balanced.put _ (by rw [new]; rfl) others
  · by_cases same : other = cache.nextAddress
    · rw [same, new]
      exact Nat.two_pos
    · rw [others other same]
      exact sound.used other (oldMember other member same)
  · by_cases same : other = cache.nextAddress
    · rw [same]
      exact Nat.lt_succ_self _
    · exact (sound.entry_lt other (oldMember other member same)).trans (Nat.lt_succ_self _)
  · by_cases same : other = cache.nextAddress
    · rw [same]
      refine iff_of_true ?_ List.mem_cons_self
      exact congrArg LRUHandle.inCache newValue
    · rw [List.mem_cons, or_iff_right same]
      exact (iff_of_eq (congrArg (fun handle => handle.inCache = true) (oldValue other same))).trans
        (sound.inCache other (oldMember other member same))
  · have charges : contents.map (fun other => (entries.value other).charge) =
        contents.map cache.chargeOf :=
      List.map_congr_left fun other member =>
        congrArg LRUHandle.charge (oldValue other (ne_of_mem_of_not_mem member notIn))
    have sum : ((cache.nextAddress :: contents).map fun other => (entries.value other).charge).sum =
        charge + (contents.map cache.chargeOf).sum := by
      rw [List.map_cons, List.sum_cons, charges, newValue]
    refine Eq.trans ?_ (congrArg (· % kSizeValues) sum.symm)
    have added : (cache.link key hash value charge).usage = (cache.usage + charge) % kSizeValues :=
      rfl
    rw [added, sound.usage_eq, Nat.mod_add_mod, Nat.add_comm]
  · by_cases same : other = cache.nextAddress
    · rw [same]
      exact (congrArg LRUHandle.charge newValue).trans_lt fits
    · exact (congrArg LRUHandle.charge (oldValue other same)).trans_lt
        (sound.charge_lt other (oldMember other member same))
  · refine (sound.deletions_count other).trans (if_congr ?_ rfl rfl)
    by_cases same : other = cache.nextAddress
    · rw [same]
      refine iff_of_false (fun all => lt_irrefl _ all.2.1) fun all => all.2.2 ?_
      rw [numbers]
      exact Finset.mem_insert_self _ _
    · have less : other < cache.nextAddress ↔ other < cache.nextAddress + 1 := by omega
      have member : other ∈ cache.entries.numbers ↔ other ∈ entries.numbers := by
        rw [numbers, Finset.mem_insert, or_iff_right same]
      rw [less, member]
      rfl
  · have notNew : deletion.entry ≠ cache.nextAddress := by
      intro same
      have counted := sound.deletions_count cache.nextAddress
      rw [if_neg fun all => lt_irrefl _ all.2.1, List.count_eq_zero] at counted
      exact counted (List.mem_map.mpr ⟨deletion, member, same⟩)
    have data := sound.deletions_data deletion member
    rw [← oldValue deletion.entry notNew] at data
    exact data

end LevelDb.LRUCache
