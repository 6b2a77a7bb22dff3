/-
This file proves what the clients of the block cache rely on, with any capacity: a value that is
looked up was inserted under its key, and no entry that a client has a handle of was passed to its
deleter. Without capacity the cache has no entries of its own, only those its clients hold.
-/

import LevelDb.LruRefinement

namespace LevelDb

variable {κ ν : Type}

/-! ### A cache without capacity -/

namespace LRUCache

/-- The cache keeps nothing, and its entries are those that clients have handles of. -/
structure Off (cache : LRUCache κ ν) : Prop where
  capacity : cache.capacity = 0
  valid : cache.table.Valid cache.info
  empty : cache.table.contents = []
  outside : ∀ entry, (cache.entries.value entry).inCache = false
  balanced : cache.entries.Balanced fun entry => cache.handles.count entry
  entry_lt : ∀ entry ∈ cache.entries.numbers, entry < cache.nextAddress
  deleted : ∀ deletion ∈ cache.deletions,
    deletion.entry < cache.nextAddress ∧ deletion.entry ∉ cache.entries.numbers

variable {cache cache' : LRUCache κ ν}

theorem off_new [Inhabited κ] [Inhabited ν] : (new 0 : LRUCache κ ν).Off where
  capacity := rfl
  valid := (HandleTable.new_valid _).1
  empty := (HandleTable.new_valid (new 0 : LRUCache κ ν).info).2
  outside := fun _ => rfl
  balanced := ⟨fun _ member => absurd member (Finset.notMem_empty _),
    fun _ held => absurd held (lt_irrefl 0)⟩
  entry_lt := fun _ member => absurd member (Finset.notMem_empty _)
  deleted := fun _ member => absurd member List.not_mem_nil

theorem Off.elems_eq (off : cache.Off) : cache.table.elems = 0 := by
  rw [off.valid.elems_eq, off.empty, List.length_nil]

/-- A handle that is given back takes its entry along when it is the last one. -/
theorem Off.unref (off : cache.Off) {handle : Nat} (member : handle ∈ cache.handles) :
    ({ cache.unref handle with handles := cache.handles.erase handle } : LRUCache κ ν).Off := by
  have same := unref_sameData cache handle
  have dropped : ∀ other, cache.handles.count other =
      (cache.handles.erase handle).count other + if other = handle then 1 else 0 := by
    intro other
    rw [(List.perm_cons_erase member).count_eq, Lib.Heap.count_cons]
  have exists' : handle ∈ cache.entries.numbers :=
    off.balanced.mem_of_pos handle (List.count_pos_iff.mpr member)
  have balanced := off.balanced.unref exists' dropped
  have numbers : (cache.entries.unref handle).numbers = cache.entries.numbers :=
    Finset.insert_eq_of_mem exists'
  have value : ∀ other, ((cache.entries.unref handle).value other).inCache = false := by
    intro other
    rw [Lib.Heap.unref_value]
    exact off.outside other
  rw [LRUCache.unref] at same ⊢
  split
  · next isFree =>
    rw [if_pos isFree] at same
    have zero : (cache.handles.erase handle).count handle = 0 := by
      have count := balanced.refs_eq handle (numbers ▸ exists')
      rw [show (cache.entries.unref handle).refs handle = 0 from isFree] at count
      exact_mod_cast count.symm
    have erased : (Lib.Shelf.remove (cache.entries.unref handle) handle).numbers =
        cache.entries.numbers.erase handle := congrArg (Finset.erase · handle) numbers
    refine ⟨off.capacity, off.valid.congr fun other _ => congrFun same.info other, off.empty,
      value, balanced.remove zero, fun other otherMember => ?_, fun deletion isDeleted => ?_⟩
    · rw [erased] at otherMember
      exact off.entry_lt other (Finset.mem_of_mem_erase otherMember)
    · rw [erased]
      rcases List.mem_append.mp isDeleted with isOld | isNew
      · obtain ⟨less, gone⟩ := off.deleted deletion isOld
        exact ⟨less, fun still => gone (Finset.mem_of_mem_erase still)⟩
      · rw [List.mem_singleton.mp isNew]
        exact ⟨off.entry_lt handle exists', Finset.notMem_erase _ _⟩
  · next notFree =>
    rw [if_neg notFree] at same
    have notIdle : ¬((cache.entries.value handle).inCache ∧
        (cache.entries.unref handle).refs handle = 1) := fun idle =>
      Bool.false_ne_true ((off.outside handle).symm.trans idle.1)
    rw [if_neg notIdle] at same ⊢
    refine ⟨off.capacity, off.valid.congr fun other _ => congrFun same.info other, off.empty,
      value, balanced, fun other otherMember => off.entry_lt other (numbers ▸ otherMember),
      fun deletion isDeleted => ?_⟩
    obtain ⟨less, gone⟩ := off.deleted deletion isDeleted
    exact ⟨less, numbers ▸ gone⟩

variable [DecidableEq κ]

theorem Off.lookup_eq_none (off : cache.Off) (key : κ) (hash : Nat) :
    cache.table.lookup cache.info key hash = none := by
  refine Option.eq_none_iff_forall_ne_some.mpr fun entry found => ?_
  have member := (off.valid.lookup_eq_some.mp found).1
  rw [off.empty] at member
  exact absurd member List.not_mem_nil

theorem Off.erase_eq (off : cache.Off) (key : κ) (hash : Nat) : cache.erase key hash = cache := by
  rw [LRUCache.erase, eraseKey, HandleTable.remove_of_lookup_none (off.lookup_eq_none key hash)]
  rfl

theorem Off.prune_eq (off : cache.Off) : cache.prune = cache := by
  rw [LRUCache.prune, off.elems_eq, pruneLoop]

/-- What is inserted is the client's alone. -/
theorem Off.insert (off : cache.Off) (key : κ) (hash : Nat) (value : ν) (charge : Nat) :
    ({ cache.insert key hash value charge with
      handles := cache.nextAddress :: cache.handles } : LRUCache κ ν).Off := by
  have fresh : cache.nextAddress ∉ cache.entries.numbers := fun member =>
    lt_irrefl _ (off.entry_lt _ member)
  have unheld : cache.handles.count cache.nextAddress = 0 :=
    Nat.eq_zero_of_not_pos fun held => fresh (off.balanced.mem_of_pos _ held)
  have noCapacity : ¬cache.capacity > 0 := Nat.not_lt.mpr off.capacity.le
  have empty : cache.table.elems = 0 := off.elems_eq
  simp only [LRUCache.insert, if_neg noCapacity, empty, evict]
  refine ⟨off.capacity, off.valid.congr fun other inTable => ?_, off.empty, fun other => ?_, ?_,
    fun other member => ?_, fun deletion isDeleted => ?_⟩
  · rw [off.empty] at inTable
    exact absurd inTable List.not_mem_nil
  · rw [Lib.Heap.value]
    by_cases isNew : other = cache.nextAddress
    · rw [isNew, Lib.Shelf.put_file_self]
    · rw [Lib.Shelf.put_file_of_ne _ isNew]
      exact off.outside other
  · refine off.balanced.put _ ?_ fun other different => ?_
    · rw [Lib.Heap.count_cons, if_pos rfl, unheld]
      rfl
    · rw [Lib.Heap.count_cons, if_neg different, Nat.add_zero]
  · rcases Lib.Shelf.mem_put.mp member with isNew | isOld
    · exact isNew ▸ Nat.lt_succ_self _
    · exact (off.entry_lt other isOld).trans (Nat.lt_succ_self _)
  · obtain ⟨less, gone⟩ := off.deleted deletion isDeleted
    refine ⟨less.trans (Nat.lt_succ_self _), fun still => ?_⟩
    rcases Lib.Shelf.mem_put.mp still with isNew | isOld
    · exact absurd less (isNew ▸ lt_irrefl _)
    · exact gone isOld

theorem Off.call (off : cache.Off) (hash : κ → Nat) {request : CacheCall κ ν}
    (called : cache.call hash request = some cache') : cache'.Off := by
  cases request with
  | insert key value charge =>
    rw [LRUCache.call] at called
    split at called
    · obtain rfl := Option.some.inj called
      exact off.insert key (hash key) value charge
    · cases called
  | lookup key =>
    rw [LRUCache.call, LRUCache.lookup, off.lookup_eq_none] at called
    obtain rfl := Option.some.inj called
    exact off
  | release handle =>
    rw [LRUCache.call] at called
    split at called
    · next member =>
      obtain rfl := Option.some.inj called
      exact off.unref member
    · cases called
  | erase key =>
    rw [LRUCache.call, off.erase_eq] at called
    exact Option.some.inj called ▸ off
  | prune =>
    rw [LRUCache.call, off.prune_eq] at called
    exact Option.some.inj called ▸ off

/-! ### Any capacity -/

/-- The entries that a cache has for its keys fit these keys, and no entry with a handle was
deleted. -/
structure Serves (hash : κ → Nat) (fits : κ → ν → Prop) (cache : LRUCache κ ν) : Prop where
  found : ∀ key entry, cache.table.lookup cache.info key (hash key) = some entry →
    fits key (cache.entries.value entry).value
  held : ∀ handle ∈ cache.handles, handle ∉ cache.deletions.map Deletion.entry

/-- The invariant behind it: the cache is off, or what an abstract cache has present fits. -/
def Keeps (hash : κ → Nat) (fits : κ → ν → Prop) (cache : LRUCache κ ν) : Prop :=
  cache.Off ∨ ∃ spec, Related hash cache spec ∧
    ∀ entry ∈ spec.present, fits (spec.item entry).key (spec.item entry).value

variable {hash : κ → Nat} {fits fits' : κ → ν → Prop}

omit [DecidableEq κ] in
theorem keeps_new [Inhabited κ] [Inhabited ν] (capacity : Nat) :
    (new capacity : LRUCache κ ν).Keeps hash fits := by
  rcases Nat.eq_zero_or_pos capacity with rfl | positive
  · exact .inl off_new
  · exact .inr ⟨CacheSpec.new capacity, related_new positive,
      fun _ impossible => absurd impossible List.not_mem_nil⟩

omit [DecidableEq κ] in
theorem Keeps.mono (keeps : cache.Keeps hash fits)
    (weaker : ∀ key value, fits key value → fits' key value) : cache.Keeps hash fits' :=
  keeps.imp_right fun ⟨spec, related, present⟩ =>
    ⟨spec, related, fun entry member => weaker _ _ (present entry member)⟩

theorem Keeps.serves (keeps : cache.Keeps hash fits) : cache.Serves hash fits := by
  rcases keeps with off | ⟨spec, related, present⟩
  · refine ⟨fun key entry found => ?_, fun handle member isDeleted => ?_⟩
    · rw [off.lookup_eq_none] at found
      cases found
    · obtain ⟨deletion, member', rfl⟩ := List.mem_map.mp isDeleted
      exact (off.deleted deletion member').2
        (off.balanced.mem_of_pos _ (List.count_pos_iff.mpr member))
  · obtain ⟨idle, refines⟩ := related.refines
    refine ⟨fun key entry found => ?_, fun handle member isDeleted => ?_⟩
    · rw [refines.lookup_eq] at found
      have isPresent : entry ∈ spec.present := List.mem_of_find?_eq_some found
      have isKey : (spec.item entry).key = key :=
        of_decide_eq_true (List.find?_some (p := fun entry => (spec.item entry).key = key) found)
      obtain ⟨large, less⟩ := refines.bounds isPresent
      rw [refines.value entry large less, ← isKey]
      exact present entry isPresent
    · have counted := related.correct.deletions handle
      have held : 0 < spec.refs handle :=
        Nat.add_pos_right _ (List.count_pos_iff.mpr (related.handles ▸ member))
      rw [if_neg fun all => held.ne' all.2.2] at counted
      exact List.count_eq_zero.mp counted isDeleted

end LRUCache

/-! ### What is present in the abstract cache -/

namespace CacheSpec

/-- What is present fits its keys, and what is inserted next is not present. -/
structure Fits (fits : κ → ν → Prop) (spec : CacheSpec κ ν) : Prop where
  present : ∀ entry ∈ spec.present, fits (spec.item entry).key (spec.item entry).value
  less : ∀ entry ∈ spec.present, entry < spec.next

variable {fits : κ → ν → Prop} {spec spec' : CacheSpec κ ν}

/-- Entries only leave. -/
theorem Fits.fewer (present : spec.Fits fits) (subset : spec'.present ⊆ spec.present)
    (item : spec'.item = spec.item) (next : spec'.next = spec.next) : spec'.Fits fits := by
  refine ⟨fun entry member => ?_, fun entry member => ?_⟩
  · rw [item]
    exact present.present entry (subset member)
  · rw [next]
    exact present.less entry (subset member)

theorem Fits.drop (present : spec.Fits fits) (entry : Nat) : (spec.drop entry).Fits fits :=
  present.fewer List.erase_subset rfl rfl

theorem Fits.evict (present : spec.Fits fits) (fuel : Nat) : (spec.evict fuel).Fits fits := by
  induction fuel generalizing spec with
  | zero => exact present
  | succ fuel inductionHypothesis =>
    rw [CacheSpec.evict]
    split
    · split
      · exact inductionHypothesis (present.drop _)
      · exact present
    · exact present

theorem Fits.prune (present : spec.Fits fits) (fuel : Nat) : (spec.prune fuel).Fits fits := by
  induction fuel generalizing spec with
  | zero => exact present
  | succ fuel inductionHypothesis =>
    rw [CacheSpec.prune]
    split
    · exact inductionHypothesis (present.drop _)
    · exact present

variable [DecidableEq κ]

theorem Fits.insert (present : spec.Fits fits) {key : κ} {value : ν} (fit : fits key value)
    (charge : Nat) : (spec.insert key value charge).Fits fits := by
  have linked : (spec.link key value charge).Fits fits := by
    refine ⟨fun entry member => ?_, fun entry member => ?_⟩
    · rcases List.mem_cons.mp member with rfl | isOld
      · rw [LRUCache.link_item_new]
        exact fit
      · rw [LRUCache.link_item (present.less entry isOld).ne]
        exact present.present entry isOld
    · rcases List.mem_cons.mp member with rfl | isOld
      · exact Nat.lt_succ_self _
      · exact (present.less entry isOld).trans (Nat.lt_succ_self _)
  rw [CacheSpec.insert]
  split
  · exact linked.drop _
  · exact linked

theorem Fits.call (present : spec.Fits fits) {request : CacheCall κ ν}
    (fit : ∀ key value charge, request = .insert key value charge → fits key value)
    (called : spec.call request = some spec') : spec'.Fits fits := by
  cases request with
  | insert key value charge =>
    obtain ⟨_, result⟩ := Option.ite_none_right_eq_some.mp called
    obtain rfl := Option.some.inj result
    exact (present.insert (fit key value charge rfl) charge).evict _
  | lookup key =>
    obtain rfl := Option.some.inj called
    exact present.fewer (List.Subset.refl _) rfl rfl
  | release handle =>
    obtain ⟨_, result⟩ := Option.ite_none_right_eq_some.mp called
    obtain rfl := Option.some.inj result
    exact present.fewer (List.Subset.refl _) rfl rfl
  | erase key =>
    obtain rfl := Option.some.inj called
    rw [CacheSpec.erase]
    split
    · exact present.drop _
    · exact present
  | prune =>
    obtain rfl := Option.some.inj called
    exact present.prune _

end CacheSpec

namespace LRUCache

variable {hash : κ → Nat} {fits : κ → ν → Prop} {cache cache' : LRUCache κ ν} [DecidableEq κ]

/-- A call keeps what the clients rely on when what it inserts fits its key. -/
theorem Keeps.call (keeps : cache.Keeps hash fits) {request : CacheCall κ ν}
    (fit : ∀ key value charge, request = .insert key value charge → fits key value)
    (called : cache.call hash request = some cache') : cache'.Keeps hash fits := by
  rcases keeps with off | ⟨spec, related, present⟩
  · exact .inl (off.call hash called)
  · obtain ⟨idle, refines⟩ := related.refines
    have fitting : spec.Fits fits := ⟨present, fun entry member => (refines.bounds member).2⟩
    have step := related.call request
    rw [called] at step
    cases result : spec.call request with
    | none =>
      rw [result] at step
      cases step
    | some spec' =>
      rw [result] at step
      cases step with
      | some related' => exact .inr ⟨spec', related', (fitting.call fit result).present⟩

end LRUCache

end LevelDb
