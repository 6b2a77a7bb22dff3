/-
This file proves that the chains of a skip list are whole after every store of an `Insert`. The new
node is linked into the chains from the bottom up, behind the nodes its search stopped at: until
the store that publishes it on a level, that level is as the insert found it.
-/

import LevelDb.SkipListReads

namespace LevelDb.SkipList

open Lib

variable {κ : Type} [LinearOrder κ] {list : SkipList κ} {chains : Nat → List Nat}

/-! ### The invariant -/

/-- The new node of an insert has joined the chains below a level and none from there on. -/
structure Joining (list : SkipList κ) (chains : Nat → List Nat) (key : κ) (x level : Nat) : Prop where
  key : list.key x = key
  allocated : x < list.nodes
  notHead : x ≠ head
  joined : ∀ lower < level, x ∈ chains lower

/-- What an insert has done by the time it reaches a point. -/
def Reached (list : SkipList κ) (chains : Nat → List Nat) (insertion : Insertion κ) : Prop :=
  match insertion.point with
  | .raise => list.maxHeight < insertion.height
  | .allocate => insertion.height ≤ list.maxHeight
  | .link x level =>
    insertion.height ≤ list.maxHeight ∧ list.Joining chains insertion.key x level
  | .publish x level =>
    insertion.height ≤ list.maxHeight ∧ list.Joining chains insertion.key x level ∧
      list.next x level = list.next (insertion.prev level) level

/-- An insert under way: on every level still to be linked its search stopped right before the place
of its key, and that key is not there yet. -/
structure Pending (list : SkipList κ) (chains : Nat → List Nat) (insertion : Insertion κ) : Prop where
  height : 1 ≤ insertion.height ∧ insertion.height ≤ kMaxHeight
  level : insertion.point.level < insertion.height
  places : ∀ level, insertion.point.level ≤ level → level < insertion.height →
    StopsAt list.key head (chains level) (fun n => decide (list.key n < insertion.key))
      (insertion.prev level)
  fresh : ∀ level, insertion.point.level ≤ level → level < kMaxHeight →
    ∀ n ∈ chains level, list.key n ≠ insertion.key
  reached : list.Reached chains insertion

/-- What holds after every store: the chains are layered and the bottom one has the linked keys. -/
structure Writer.Sound (writer : Writer κ) (chains : Nat → List Nat) : Prop where
  shape : writer.list.Shape chains
  keys : ((chains 0).map writer.list.key).Perm writer.linkedKeys
  pending : ∀ insertion ∈ writer.insertion, writer.list.Pending chains insertion

/-! ### The stores -/

theorem Writer.sound_create (anyKey : κ) : (Writer.create anyKey).Sound fun _ => [] where
  shape := {
    layers := {
      threads := fun _ _ => rfl
      ascending := fun _ _ => List.Pairwise.nil
      below := fun _ _ => List.Subset.refl _
      noHead := List.not_mem_nil }
    inUse := ⟨le_refl 1, Nat.le_add_left 1 11⟩
    empty := fun _ _ _ => rfl
    allocated := by simp [Writer.create, SkipList.create, head] }
  keys := List.Perm.refl _
  pending := by simp [Writer.create]

variable {writer : Writer κ} {insertion : Insertion κ} {x level : Nat}

omit [LinearOrder κ] in
/-- A node that has not joined a level is no member of it. -/
theorem Joining.notMem {key : κ} (joining : list.Joining chains key x level)
    (fresh : ∀ n ∈ chains level, list.key n ≠ key) : x ∉ head :: chains level := by
  intro member
  obtain isHead | inLevel := List.mem_cons.mp member
  · exact joining.notHead isHead
  · exact fresh x inLevel joining.key

namespace Shape

theorem raise (shape : list.Shape chains) {height : Nat} (raises : list.maxHeight < height)
    (high : height ≤ kMaxHeight) : Shape { list with maxHeight := height } chains where
  layers := shape.layers
  inUse := ⟨shape.inUse.1.trans raises.le, high⟩
  empty level unused := shape.empty level (raises.le.trans unused)
  allocated := shape.allocated

/-- A newly allocated node is on no chain, so neither its key nor its links count yet. -/
theorem allocate (shape : list.Shape chains) (key : κ) (memory : Nat → Option Nat) :
    Shape { list with
      key := Function.update list.key list.nodes key
      next := Function.update list.next list.nodes memory
      nodes := list.nodes + 1 } chains where
  layers := by
    refine shape.layers.frame (fun level inRange node member => ?_) fun node member => ?_
    · have onBottom := List.cons_subset_cons head (shape.layers.subset_bottom inRange) member
      show Function.update list.next list.nodes memory node level = list.next node level
      rw [Function.update_of_ne (shape.allocated node onBottom).ne]
    · exact Function.update_of_ne (shape.allocated node (List.mem_cons_of_mem _ member)).ne _ _
  inUse := shape.inUse
  empty := shape.empty
  allocated node member := (shape.allocated node member).trans (Nat.lt_succ_self _)

/-- A node's link at a level it has not joined is read by nobody. -/
theorem link (shape : list.Shape chains) (notOn : x ∉ head :: chains level) (target : Option Nat) :
    (list.setNext x level target).Shape chains where
  layers := by
    refine shape.layers.frame (fun lower inRange node member => ?_) fun node _ => rfl
    refine setNext_of_ne list target ?_
    by_contra same
    obtain ⟨rfl, rfl⟩ := not_or.mp same |>.imp not_not.mp not_not.mp
    exact notOn member
  inUse := shape.inUse
  empty := shape.empty
  allocated := shape.allocated

/-- The store that publishes a node on a level puts it into the chain of that level, at its place. -/
theorem publish (shape : list.Shape chains) {prev : Nat} (inUse : level < list.maxHeight)
    (joining : list.Joining chains (list.key x) x level)
    (fresh : ∀ n ∈ chains level, list.key n ≠ list.key x)
    (stopsAt : StopsAt list.key head (chains level) (fun n => decide (list.key n < list.key x)) prev)
    (own : list.next x level = list.next prev level) :
    ∃ chains', (list.setNext prev level (some x)).Shape chains' ∧
      (chains' level).Perm (x :: chains level) ∧ ∀ lower, lower ≠ level → chains' lower = chains lower := by
  have inRange := inUse.trans_le shape.inUse.2
  have notOn := joining.notMem fresh
  have x_ne : x ≠ prev := (ne_of_mem_of_not_mem stopsAt.mem notOn).symm
  obtain ⟨chains', layers, perm, others⟩ := @Layers.splice _ _ _ _ _ _ _ _
    (list.setNext prev level (some x)).next _ _ _ x shape.layers inRange stopsAt notOn
    (fun lower isBelow => joining.joined lower (isBelow ▸ Nat.lt_succ_self lower)) fresh
    ((setNext_of_ne list _ (.inl x_ne)).trans own) (setNext_self list prev level _)
    (fun other _ distinct => setNext_of_ne list _ (.inl distinct))
    fun other lower distinct => setNext_of_ne list _ (.inr distinct)
  refine ⟨chains', ⟨layers, shape.inUse, fun lower unused inRange => ?_, fun node member => ?_⟩, perm,
    others⟩
  · rw [others lower (inUse.trans_le unused).ne']
    exact shape.empty lower unused inRange
  · obtain rfl | otherLevel := eq_or_ne 0 level
    · have member' := (List.Perm.cons head perm).subset member
      obtain isHead | rfl | inChain := by simpa using member'
      · exact shape.allocated node (isHead ▸ List.mem_cons_self)
      · exact joining.allocated
      · exact shape.allocated node (List.mem_cons_of_mem _ inChain)
    · rw [others 0 otherLevel] at member
      exact shape.allocated node member

end Shape

namespace Writer

/-- An insert begins with the places of its key on every level it will link. -/
theorem Sound.begin (sound : writer.Sound chains) (idle : writer.insertion = none) {key : κ}
    {height : Nat} (isNew : key ∉ writer.inserted) (low : 1 ≤ height) (high : height ≤ kMaxHeight)
    (stack : Nat → Nat) (memory : Nat → Option Nat) :
    ∃ writer', writer.begin key height stack memory = some writer' ∧ writer'.Sound chains := by
  have linked : writer.linkedKeys = writer.inserted := by
    rw [linkedKeys, idle]
    exact List.append_nil _
  have distinct : ∀ n ∈ chains 0, writer.list.key n ≠ key := fun n member same =>
    isNew (linked ▸ sound.keys.subset (same ▸ List.mem_map_of_mem member))
  obtain ⟨prev, found, stops⟩ := sound.shape.findGreaterOrEqual_eq key stack
  have assertion : (((chains 0).find? fun n => decide (key ≤ writer.list.key n)).any fun x =>
      decide (writer.list.key x = key)) = false := by
    cases first : (chains 0).find? fun n => decide (key ≤ writer.list.key n) with
    | none => rfl
    | some x => exact decide_eq_false (distinct x (List.mem_of_find?_eq_some first))
  have places : ∀ level < height, StopsAt writer.list.key head (chains level)
      (fun n => decide (writer.list.key n < key))
      (if decide (writer.list.maxHeight < height) ∧ writer.list.maxHeight ≤ level ∧ level < height
        then head else prev level) := by
    intro level inHeight
    obtain inUse | unused := lt_or_ge level writer.list.maxHeight
    · rw [if_neg fun raised => not_le.mpr inUse raised.2.1]
      exact stops level inUse
    · rw [if_pos ⟨decide_eq_true (unused.trans_lt inHeight), unused, inHeight⟩,
        sound.shape.empty level unused (inHeight.trans_le high)]
      exact ⟨List.mem_cons_self, fun n member => absurd member List.not_mem_nil⟩
  have unlinked : ∀ raises : Prop, [Decidable raises] →
      (if raises then Point.raise else .allocate).level = 0 := fun raises _ => by split <;> rfl
  rw [Writer.begin, found, Option.bind_some, assertion, if_neg Bool.false_ne_true]
  refine ⟨_, rfl, sound.shape, ?_, fun insertion begun => ?_⟩
  · simp only [linkedKeys, Option.filter_some, Insertion.linked, unlinked, lt_irrefl, decide_false]
    rw [if_neg Bool.false_ne_true, Option.map_none, Option.toList_none, List.append_nil, ← linked]
    exact sound.keys
  · obtain rfl := Option.some.inj begun
    refine ⟨⟨low, high⟩, (unlinked _).trans_lt low, fun level _ => places level,
      fun level _ inRange n member =>
        distinct n (sound.shape.layers.subset_bottom inRange member), ?_⟩
    unfold Reached
    obtain raises | fits := lt_or_ge writer.list.maxHeight height
    · rw [decide_eq_true raises, if_pos rfl]
      exact raises
    · rw [decide_eq_false (not_lt.mpr fits), if_neg Bool.false_ne_true]
      exact fits

omit [LinearOrder κ] in
/-- The linked keys while an insert is under way. -/
theorem linkedKeys_of_insertion (underWay : writer.insertion = some insertion) :
    writer.linkedKeys = writer.inserted ++ if insertion.linked then [insertion.key] else [] := by
  rw [linkedKeys, underWay, Option.filter_some]
  split <;> rfl

/-- A sound writer stays sound when its list keeps its bottom chain and the keys on it, and its
insert stays on the same side of the store that links the bottom level. -/
theorem Sound.advance (sound : writer.Sound chains) (underWay : writer.insertion = some insertion)
    {list : SkipList κ} (shape : list.Shape chains)
    (sameKeys : ∀ n ∈ chains 0, list.key n = writer.list.key n) {point : Point}
    (sameSide : point.level = insertion.point.level)
    (pending : list.Pending chains { insertion with point := point }) :
    Sound { writer with list := list, insertion := some { insertion with point := point } } chains where
  shape := shape
  keys := by
    rw [List.map_congr_left sameKeys, linkedKeys_of_insertion rfl]
    have before := sound.keys
    rw [linkedKeys_of_insertion underWay] at before
    unfold Insertion.linked at before ⊢
    rwa [sameSide]
  pending := fun _ same => Option.some.inj same ▸ pending

theorem Sound.raise (sound : writer.Sound chains) (underWay : writer.insertion = some insertion)
    (atPoint : insertion.point = .raise) : (writer.store insertion).Sound chains := by
  have pending := sound.pending insertion underWay
  have raises : writer.list.maxHeight < insertion.height := by
    have reached := pending.reached
    rwa [Reached, atPoint] at reached
  have sameLevel : Point.allocate.level = insertion.point.level := by rw [atPoint]; rfl
  unfold store
  rw [atPoint]
  refine sound.advance underWay (sound.shape.raise raises pending.height.2) (fun _ _ => rfl) sameLevel
    ⟨pending.height, sameLevel ▸ pending.level, ?_, ?_, le_refl _⟩
  · exact fun level fromPoint => pending.places level (sameLevel ▸ fromPoint)
  · exact fun level fromPoint => pending.fresh level (sameLevel ▸ fromPoint)

theorem Sound.allocate (sound : writer.Sound chains) (underWay : writer.insertion = some insertion)
    (atPoint : insertion.point = .allocate) : (writer.store insertion).Sound chains := by
  have pending := sound.pending insertion underWay
  have fits : insertion.height ≤ writer.list.maxHeight := by
    have reached := pending.reached
    rwa [Reached, atPoint] at reached
  have sameLevel : (Point.link writer.list.nodes 0).level = insertion.point.level := by
    rw [atPoint]; rfl
  have sameKeys : ∀ n ∈ chains 0,
      Function.update writer.list.key writer.list.nodes insertion.key n = writer.list.key n :=
    fun n member => Function.update_of_ne
      (sound.shape.allocated n (List.mem_cons_of_mem _ member)).ne _ _
  have onBottom : ∀ {level}, level < insertion.height → chains level ⊆ chains 0 := fun inHeight =>
    sound.shape.layers.subset_bottom (inHeight.trans_le pending.height.2)
  unfold store
  rw [atPoint]
  refine sound.advance underWay (sound.shape.allocate insertion.key insertion.memory) sameKeys sameLevel
    ⟨pending.height, sameLevel ▸ pending.level, ?_, ?_, ?_⟩
  · intro level fromPoint inHeight
    refine (pending.places level (sameLevel ▸ fromPoint) inHeight).congr
      (sound.shape.layers.noHead_at (inHeight.trans_le pending.height.2))
      (fun n member => sameKeys n (onBottom inHeight member)) fun n member => ?_
    exact congrArg (fun key => decide (key < insertion.key)) (sameKeys n (onBottom inHeight member))
  · intro level fromPoint inRange n member same
    refine pending.fresh level (sameLevel ▸ fromPoint) inRange n member ?_
    exact (sameKeys n (sound.shape.layers.subset_bottom inRange member)).symm.trans same
  · refine ⟨fits, Function.update_self _ _ _, Nat.lt_succ_self _, ?_, fun lower below =>
      absurd below (Nat.not_lt_zero _)⟩
    exact (sound.shape.allocated head List.mem_cons_self).ne'

theorem Sound.link (sound : writer.Sound chains) (underWay : writer.insertion = some insertion)
    (atPoint : insertion.point = .link x level) : (writer.store insertion).Sound chains := by
  have pending := sound.pending insertion underWay
  obtain ⟨fits, joining⟩ : insertion.height ≤ writer.list.maxHeight ∧
      writer.list.Joining chains insertion.key x level := by
    have reached := pending.reached
    rwa [Reached, atPoint] at reached
  have isLevel : insertion.point.level = level := by rw [atPoint]; rfl
  have sameLevel : (Point.publish x level).level = insertion.point.level := isLevel.symm
  have atLevel : level < insertion.height := isLevel ▸ pending.level
  have notOn := joining.notMem (pending.fresh level sameLevel.ge (atLevel.trans_le pending.height.2))
  have place := pending.places level sameLevel.ge atLevel
  unfold store
  rw [atPoint]
  refine sound.advance underWay (sound.shape.link notOn _) (fun _ _ => rfl) sameLevel
    ⟨pending.height, sameLevel ▸ pending.level, ?_, ?_, ?_⟩
  · exact fun level fromPoint => pending.places level (sameLevel ▸ fromPoint)
  · exact fun level fromPoint => pending.fresh level (sameLevel ▸ fromPoint)
  · refine ⟨fits, ⟨joining.key, joining.allocated, joining.notHead, joining.joined⟩, ?_⟩
    show (writer.list.setNext x level _).next x level = _
    rw [setNext_self, setNext_of_ne _ _ (.inl (ne_of_mem_of_not_mem place.mem notOn))]

/-- The store that publishes a node on a level: on the bottom level its key becomes a linked one,
and on the last level the insert returns. -/
theorem Sound.publish (sound : writer.Sound chains) (underWay : writer.insertion = some insertion)
    (atPoint : insertion.point = .publish x level) :
    ∃ chains', (writer.store insertion).Sound chains' ∧ chains 0 ⊆ chains' 0 := by
  have pending := sound.pending insertion underWay
  obtain ⟨fits, joining, own⟩ : insertion.height ≤ writer.list.maxHeight ∧
      writer.list.Joining chains insertion.key x level ∧
        writer.list.next x level = writer.list.next (insertion.prev level) level := by
    have reached := pending.reached
    rwa [Reached, atPoint] at reached
  have isLevel : insertion.point.level = level := by rw [atPoint]; rfl
  have atLevel : level < insertion.height := isLevel ▸ pending.level
  obtain ⟨chains', shape, perm, others⟩ := sound.shape.publish (atLevel.trans_le fits)
    (joining.key.symm ▸ joining)
    (joining.key.symm ▸ pending.fresh level isLevel.le (atLevel.trans_le pending.height.2))
    (joining.key.symm ▸ pending.places level isLevel.le atLevel) own
  have before := sound.keys
  rw [linkedKeys_of_insertion underWay, Insertion.linked, isLevel] at before
  have keys : ((chains' 0).map writer.list.key).Perm (writer.inserted ++ [insertion.key]) := by
    obtain rfl | above := Nat.eq_zero_or_pos level
    · have grown := perm.map writer.list.key
      rw [List.map_cons, joining.key] at grown
      refine grown.trans (List.Perm.trans ?_ (List.perm_append_singleton _ _).symm)
      simpa using before
    · rw [others 0 above.ne]
      simpa [above] using before
  have grows : chains 0 ⊆ chains' 0 := by
    obtain rfl | otherLevel := eq_or_ne 0 level
    · exact List.Subset.trans (List.subset_cons_self x _) perm.symm.subset
    · rw [others 0 otherLevel]
      exact List.Subset.refl _
  refine ⟨chains', ?_, grows⟩
  unfold store
  rw [atPoint]
  dsimp only
  split
  next more =>
    refine ⟨shape, ?_, fun _ same => Option.some.inj same ▸ ⟨pending.height, more, ?_, ?_, ?_⟩⟩
    · rw [linkedKeys_of_insertion rfl]
      exact keys
    · intro upper fromPoint inHeight
      rw [others upper (Nat.lt_of_succ_le fromPoint).ne']
      exact pending.places upper (isLevel ▸ (Nat.le_of_succ_le fromPoint)) inHeight
    · intro upper fromPoint inRange
      rw [others upper (Nat.lt_of_succ_le fromPoint).ne']
      exact pending.fresh upper (isLevel ▸ (Nat.le_of_succ_le fromPoint)) inRange
    · refine ⟨fits, joining.key, joining.allocated, joining.notHead, fun lower below => ?_⟩
      obtain below | rfl := Nat.lt_succ_iff_lt_or_eq.mp below
      · rw [others lower below.ne]
        exact joining.joined lower below
      · exact perm.symm.subset List.mem_cons_self
  next last =>
    refine ⟨shape, ?_, fun _ none => absurd none (Option.not_mem_none _)⟩
    rw [linkedKeys, Option.filter_none, Option.map_none, Option.toList_none, List.append_nil]
    exact keys

/-- Every store of an insert keeps the chains whole and every node on the bottom chain there. -/
theorem Sound.store (sound : writer.Sound chains) (underWay : writer.insertion = some insertion) :
    ∃ chains', (writer.store insertion).Sound chains' ∧ chains 0 ⊆ chains' 0 := by
  cases atPoint : insertion.point with
  | raise => exact ⟨chains, sound.raise underWay atPoint, List.Subset.refl _⟩
  | allocate => exact ⟨chains, sound.allocate underWay atPoint, List.Subset.refl _⟩
  | link x level => exact ⟨chains, sound.link underWay atPoint, List.Subset.refl _⟩
  | publish x level => exact sound.publish underWay atPoint

/-- Every step keeps the chains whole. -/
theorem Sound.step (sound : writer.Sound chains) {action : Action κ} (isFresh : writer.Fresh action)
    {writer' : Writer κ} (taken : writer.step action = some writer') :
    ∃ chains', writer'.Sound chains' ∧ chains 0 ⊆ chains' 0 := by
  cases action with
  | insert key height stack memory =>
    obtain ⟨isNew, low, high⟩ := isFresh
    have guarded : (if writer.insertion.isSome then none else
        writer.begin key height stack memory) = some writer' := taken
    obtain ⟨idle, begins⟩ := Option.ite_none_left_eq_some.mp guarded
    obtain ⟨begun, result, sound'⟩ := sound.begin (Option.not_isSome_iff_eq_none.mp idle) isNew low high
      stack memory
    obtain rfl := Option.some.inj (result.symm.trans begins)
    exact ⟨chains, sound', List.Subset.refl _⟩
  | store =>
    obtain ⟨insertion, underWay, rfl⟩ := Option.map_eq_some_iff.mp taken
    exact sound.store underWay

/-! ### Runs -/

variable {anyKey : κ}

/-- A node that an iterator stands on stays on the bottom chain, whatever the writer does next. -/
theorem node_stays {writer' : Writer κ} (reached : Reachable Writer.step Fresh writer writer')
    (sound : writer.Sound chains) : ∃ chains', writer'.Sound chains' ∧ chains 0 ⊆ chains' 0 := by
  induction reached with
  | refl => exact ⟨chains, sound, List.Subset.refl _⟩
  | next action _ isFresh taken inductionHypothesis =>
    obtain ⟨middle, sound', grows⟩ := inductionHypothesis
    obtain ⟨chains', sound'', grows'⟩ := sound'.step isFresh taken
    exact ⟨chains', sound'', List.Subset.trans grows grows'⟩

/-- The chains are whole in every state a run reaches. -/
theorem sound_of_reachable (reached : Reachable Writer.step Fresh (create anyKey) writer) :
    ∃ chains, writer.Sound chains :=
  have ⟨chains, sound, _⟩ := node_stays reached (sound_create anyKey)
  ⟨chains, sound⟩

/-- No search of an insert runs out of rounds and no assertion fails: an idle writer can begin the
insert of any new key. -/
theorem begins_of_reachable (reached : Reachable Writer.step Fresh (create anyKey) writer)
    (idle : writer.insertion = none) {key : κ} {height : Nat} {stack : Nat → Nat}
    {memory : Nat → Option Nat} (isFresh : writer.Fresh (.insert key height stack memory)) :
    (writer.step (.insert key height stack memory)).isSome := by
  obtain ⟨chains, sound⟩ := sound_of_reachable reached
  obtain ⟨isNew, low, high⟩ := isFresh
  obtain ⟨begun, result, -⟩ := sound.begin idle isNew low high stack memory
  show (if writer.insertion.isSome then none else writer.begin key height stack memory).isSome
  rw [idle, if_neg (by simp), result]
  rfl

/-- Another insert once the first key is linked. -/
theorem begins_of_reachable_second : ∃ writer : Writer Nat,
    Reachable Writer.step Fresh (create 0) writer ∧ writer.linkedKeys = [5] ∧
      (writer.step (.insert 3 2 id some)).isSome := by
  obtain ⟨writer, reached, isSuch⟩ := exists_of_run
    (show (Lib.run Writer.step Fresh (create 0) [.insert 5 1 id some, .store, .store, .store]).any
      (fun writer => writer.linkedKeys = [5] ∧ writer.insertion.isNone ∧
        writer.Fresh (.insert 3 2 id some)) = true by decide +kernel)
  obtain ⟨keys, idle, isFresh⟩ := of_decide_eq_true isSuch
  have isIdle := Option.isNone_iff_eq_none.mp idle
  exact ⟨writer, reached, keys, begins_of_reachable reached isIdle isFresh⟩

/-- After every store of every insert the chains are sorted, hold the linked keys and are each part
of the one below, and every read answers from the bottom chain. -/
theorem reads_agree (reached : Reachable Writer.step Fresh (create anyKey) writer) :
    ∃ chains : Nat → List Nat,
      (∀ level < kMaxHeight, Threads (fun node => writer.list.next node level) head (chains level)) ∧
      ((chains 0).map writer.list.key).Pairwise (· < ·) ∧
      ((chains 0).map writer.list.key).Perm writer.linkedKeys ∧
      (∀ level, level + 1 < kMaxHeight → (chains (level + 1)).Sublist (chains level)) ∧
      (∀ key, writer.list.contains key = some (decide (key ∈ (chains 0).map writer.list.key))) ∧
      ∀ (node : Option Nat) (call : CursorCall κ), (∀ n ∈ node, n ∈ chains 0) →
        writer.list.iterate node call =
          (cursorStep (writer.list.bindings (chains 0)) (node.map fun n => (writer.list.key n, n))
            call).map (Option.map Prod.snd) := by
  obtain ⟨chains, sound⟩ := sound_of_reachable reached
  have layers := sound.shape.layers
  refine ⟨chains, layers.threads, List.pairwise_map.mpr sound.shape.ascending, sound.keys,
    fun level => layers.sublist, sound.shape.contains_eq, fun node call onChain => ?_⟩
  exact sound.shape.iterate_eq onChain call

/-- Between the store that links a node of height two on the bottom level and the one that links
it above. -/
theorem reads_agree_between_levels : ∃ writer : Writer Nat,
    Reachable Writer.step Fresh (create 0) writer ∧ writer.list.maxHeight = 2 ∧
      (∃ chains : Nat → List Nat, ((chains 0).map writer.list.key).Perm [5, 3] ∧
        (chains 1).Sublist (chains 0)) ∧ writer.list.contains 3 = some true := by
  obtain ⟨writer, reached, isSuch⟩ := exists_of_run
    (show (Lib.run Writer.step Fresh (create 0) [.insert 5 1 id some, .store, .store, .store,
      .insert 3 2 id some, .store, .store, .store, .store]).any (fun writer =>
        writer.list.maxHeight = 2 ∧ writer.linkedKeys = [5, 3]) = true by decide +kernel)
  obtain ⟨height, keys⟩ := of_decide_eq_true isSuch
  obtain ⟨chains, -, -, perm, sublist, contains, -⟩ := reads_agree reached
  rw [keys] at perm
  refine ⟨writer, reached, height, ⟨chains, perm, sublist 0 (by decide)⟩, (contains 3).trans ?_⟩
  rw [decide_eq_true (perm.symm.subset (by decide))]

end Writer

end LevelDb.SkipList
