import PicksOnMap.Guarantees.ChildChanges
import PicksOnMap.Guarantees.LocalWrites

/-!
# Events of one operation

Source pin: Pods/FirebaseDatabase, FViewProcessor.m:86-101,129-419,469-660;
FWriteTree.m:187-273,275-331.

Whatever an operation meets in the caches, the child events it raises are the
difference between the event node before and after it, and it leaves the value event
out only where that node did not change.
-/
namespace PicksOnMap.Source

open Support Support.SortedEntries

variable {K : Type} [LinearOrder K] [StringComparator K]

/-! ## The children of a compound write -/

namespace FCompoundWrite

section Children

variable {write : FCompoundWrite K}

theorem Canonical.mem_childCompoundWrites (canonical : write.Canonical)
    {child : K × FCompoundWrite K} (member : child ∈ write.childCompoundWrites) :
    write.nodeAt [] = none ∧ ∀ path, child.2.nodeAt path = write.nodeAt (child.1 :: path) := by
  obtain ⟨entry, held, rfl⟩ := List.mem_map.mp member
  have found := FImmutableTree.get?_of_mem canonical.tree.sorted held
  have at_entry : write.writeTree.childAt entry.1 = entry.2 := by
    simp [FImmutableTree.childAt, found]
  have lookup : ∀ path, (⟨entry.2⟩ : FCompoundWrite K).nodeAt path =
      write.nodeAt (entry.1 :: path) := by
    intro path
    unfold nodeAt
    rw [FImmutableTree.valueAtPath_cons, at_entry]
  refine ⟨?_, lookup⟩
  have full := canonical.tree.get?_children entry.1
  rw [found, at_entry] at full
  have nonempty : entry.2.isEmpty = false := by
    by_contra empty
    rw [if_pos (Bool.eq_true_of_not_eq_false empty)] at full
    cases full
  obtain ⟨below, value, there⟩ := (at_entry ▸ canonical.tree.childAt entry.1).exists_value nonempty
  cases top : write.nodeAt [] with
  | none => rfl
  | some node =>
      have deeper : write.nodeAt (entry.1 :: below) = some value := (lookup below).symm.trans there
      cases canonical.terminal [] _ node value top deeper List.nil_prefix

theorem Canonical.childCompoundWrites (canonical : write.Canonical) {child : K × FCompoundWrite K}
    (member : child ∈ write.childCompoundWrites) : child.2.Canonical := by
  obtain ⟨-, lookup⟩ := canonical.mem_childCompoundWrites member
  obtain ⟨entry, held, rfl⟩ := List.mem_map.mp member
  refine ⟨?_, fun path node there => ?_, fun path below node other there otherThere under => ?_⟩
  · have found := FImmutableTree.get?_of_mem canonical.tree.sorted held
    have wf := canonical.tree.childAt entry.1
    simpa [FImmutableTree.childAt, found] using wf
  · exact canonical.nodes _ node ((lookup path).symm.trans there)
  · have same := canonical.terminal _ _ node other ((lookup path).symm.trans there)
      ((lookup below).symm.trans otherThere) (List.cons_prefix_cons.mpr ⟨rfl, under⟩)
    exact (List.cons.inj same).2

theorem Canonical.nodup_childCompoundWrites (canonical : write.Canonical) :
    (write.childCompoundWrites.map Prod.fst).Nodup := by
  unfold FCompoundWrite.childCompoundWrites
  rw [List.map_map]
  exact canonical.tree.keys_nodup

end Children

end FCompoundWrite

/-! ## Calculated nodes are well formed -/

namespace FWriteTree

variable {tree : FWriteTree K} (canonical : tree.visibleWrites.Canonical)
include canonical

theorem calculateCompleteEventCacheAtPath_wellFormed {path : FPath K} {server : Option (FNode K)}
    (wf : ∀ node, server = some node → node.WellFormed) {node : FNode K}
    (answer : tree.calculateCompleteEventCacheAtPath path server none false = some node) :
    node.WellFormed := by
  unfold calculateCompleteEventCacheAtPath at answer
  simp only [Option.isNone_none, Bool.not_false, Bool.and_true, ↓reduceIte] at answer
  split at answer
  · next shadowing complete =>
      obtain rfl := Option.some.inj answer
      exact canonical.completeNodeAtPath_wellFormed complete
  · split at answer
    · exact wf node answer
    · split at answer
      · cases answer
      · obtain rfl := Option.some.inj answer
        refine (canonical.childCompoundWriteAtPath path).applyToNode_wellFormed ?_
        cases server with
        | none => exact .emptyNode
        | some server => exact wf server rfl

theorem calculateCompleteChildAtPath_wellFormed {path : FPath K} {childKey : K}
    {cache : FCacheNode K} (wf : cache.node.WellFormed) {node : FNode K}
    (answer : tree.calculateCompleteChildAtPath path childKey cache = some node) :
    node.WellFormed := by
  unfold calculateCompleteChildAtPath at answer
  dsimp only at answer
  split at answer
  · next complete =>
      obtain rfl := Option.some.inj answer
      exact canonical.completeNodeAtPath_wellFormed complete
  · split at answer
    · obtain rfl := Option.some.inj answer
      exact (canonical.childCompoundWriteAtPath _).applyToNode_wellFormed
        (wf.getImmediateChild childKey)
    · cases answer

theorem calculateEventCacheAfterServerOverwriteAtPath_wellFormed {path childPath : FPath K}
    {server : FNode K} (wf : server.WellFormed) {node : FNode K}
    (answer : tree.calculateEventCacheAfterServerOverwriteAtPath path childPath server =
      some node) : node.WellFormed := by
  unfold calculateEventCacheAfterServerOverwriteAtPath at answer
  dsimp only at answer
  split at answer
  · cases answer
  · split at answer
    · exact Option.some.inj answer ▸ wf.getChild childPath
    · obtain rfl := Option.some.inj answer
      exact (canonical.childCompoundWriteAtPath _).applyToNode_wellFormed (wf.getChild childPath)

omit canonical [StringComparator K] in
theorem wellFormed_updateAll (layer : K → FNode K → FNode K)
    (layers : ∀ key node, node.WellFormed → (layer key node).WellFormed)
    {children : List (K × FNode K)} {start : FNode K} (startWf : start.WellFormed)
    (each : ∀ child ∈ children, child.2.WellFormed) :
    (children.foldl (fun node child => node.updateImmediateChild child.1 (layer child.1 child.2))
      start).WellFormed := by
  induction children generalizing start with
  | nil => exact startWf
  | cons child rest ih =>
      exact ih (startWf.updateImmediateChild (layers _ _ (each child List.mem_cons_self)) child.1)
        fun later member => each later (List.mem_cons_of_mem _ member)

theorem calculateCompleteEventChildrenAtPath_wellFormed (path : FPath K) {server : FNode K}
    (wf : server.WellFormed) :
    (tree.calculateCompleteEventChildrenAtPath path server).WellFormed := by
  unfold calculateCompleteEventChildrenAtPath
  split
  · exact .emptyNode
  · next entries complete =>
      have whole := canonical.completeNodeAtPath_wellFormed complete
      refine wellFormed_updateAll (fun _ node => node) (fun _ _ nodeWf => nodeWf) .emptyNode
        fun child member => ?_
      obtain _ | @⟨_, sorted, pruned, each⟩ := whole
      exact each child member
  · have merge := canonical.childCompoundWriteAtPath path
    have childWf : ∀ child ∈ (tree.visibleWrites.childCompoundWriteAtPath path).completeChildren,
        child.2.WellFormed := by
      intro child member
      unfold FCompoundWrite.completeChildren at member
      split at member
      · cases member
      · next entries top =>
          have whole := merge.nodes [] _ ((FImmutableTree.valueAtPath_nil _).trans top)
          obtain _ | @⟨_, sorted, pruned, each⟩ := whole
          exact each child member
      · obtain ⟨entry, held, value⟩ := List.mem_filterMap.mp member
        obtain ⟨node, there, rfl⟩ := Option.map_eq_some_iff.mp value
        have inside : (entry.1, (⟨entry.2⟩ : FCompoundWrite K)) ∈
            (tree.visibleWrites.childCompoundWriteAtPath path).childCompoundWrites :=
          List.mem_map.mpr ⟨entry, held, rfl⟩
        exact (merge.childCompoundWrites inside).nodes [] node
          ((FImmutableTree.valueAtPath_nil _).trans there)
    refine wellFormed_updateAll (fun _ node => node) (fun _ _ nodeWf => nodeWf) ?_ childWf
    have serverWf : ∀ child ∈ server.enumerated, child.2.WellFormed := by
      intro child member
      rw [(FIndexedFilter.mem_enumerated wf member).1]
      exact wf.getImmediateChild child.1
    exact wellFormed_updateAll
      (fun key node => ((tree.visibleWrites.childCompoundWriteAtPath
        path).childCompoundWriteAtPath [key]).applyToNode node)
      (fun key node nodeWf => (merge.childCompoundWriteAtPath [key]).applyToNode_wellFormed nodeWf)
      .emptyNode serverWf

end FWriteTree

/-! ## What an operation tracks -/

structure FViewCache.Sound (viewCache : FViewCache K) : Prop where
  event : viewCache.cachedEventSnap.node.WellFormed
  server : viewCache.cachedServerSnap.node.WellFormed

omit [StringComparator K] in
theorem FViewCache.Sound.completeServerSnap {viewCache : FViewCache K} (sound : viewCache.Sound)
    {node : FNode K} (complete : viewCache.completeServerSnap = some node) : node.WellFormed := by
  unfold FViewCache.completeServerSnap at complete
  split at complete
  · exact Option.some.inj complete ▸ sound.server
  · cases complete

def FOperation.Sound : FOperation K → Prop
  | .overwrite _ _ snap => snap.WellFormed
  | .merge _ children => children.Canonical
  | _ => True

namespace FViewProcessor

variable {numbers : NumberEquality} {writes : FWriteTreeRef K}

/-- The caches stay well formed, and the changes lead from the old event node to the new one. -/
structure Evolves (numbers : NumberEquality) (old : FNode K)
    (result : FViewCache K × List (K × FChange K)) : Prop where
  sound : result.1.Sound
  leads : Leads numbers old.getImmediateChild result.1.cachedEventSnap.node.getImmediateChild
    result.2

omit [StringComparator K] in
theorem Evolves.refl {viewCache : FViewCache K} (sound : viewCache.Sound) :
    Evolves numbers viewCache.cachedEventSnap.node (viewCache, []) :=
  ⟨sound, Leads.refl _⟩

omit [StringComparator K] in
/-- The event cache moves to a node that the filter made. -/
theorem evolves_updateEventSnap {viewCache : FViewCache K} (sound : viewCache.Sound)
    {filtered : FNode K × List (K × FChange K)} (wf : filtered.1.WellFormed)
    (leads : Leads numbers viewCache.cachedEventSnap.node.getImmediateChild
      filtered.1.getImmediateChild filtered.2) (complete : Bool) :
    Evolves numbers viewCache.cachedEventSnap.node
      (viewCache.updateEventSnap filtered.1 complete, filtered.2) :=
  ⟨⟨wf, sound.server⟩, leads⟩

/-- The merge that is laid over the children is the one for the view's path. -/
theorem actualMerge_canonical {changedChildren : FCompoundWrite K}
    (merge : changedChildren.Canonical)
    (path : FPath K) :
    (if path.isEmpty then changedChildren
      else FCompoundWrite.emptyWrite.addCompoundWrite changedChildren path).Canonical := by
  split
  · exact merge
  · rw [FCompoundWrite.addCompoundWrite_eq]
    refine FCompoundWrite.canonical_emptyWrite.addAll fun entry member => ?_
    obtain ⟨inner, held, rfl⟩ := List.mem_map.mp member
    exact merge.nodes inner.1 inner.2 ((merge.tree.mem_entries _ _).mp held)

section Operations

variable (canonical : writes.writeTree.visibleWrites.Canonical)
include canonical

theorem completeEventCache_wellFormed {viewCache : FViewCache K} (sound : viewCache.Sound) :
    ((writes.calculateCompleteEventCacheWithCompleteServerCache
      viewCache.completeServerSnap).getD .emptyNode).WellFormed := by
  cases answer : writes.calculateCompleteEventCacheWithCompleteServerCache
      viewCache.completeServerSnap with
  | none => exact .emptyNode
  | some node =>
      exact FWriteTree.calculateCompleteEventCacheAtPath_wellFormed canonical
        (fun _ complete => sound.completeServerSnap complete) answer

theorem nodeWithLocalWrites_wellFormed {viewCache : FViewCache K} (sound : viewCache.Sound) :
    (nodeWithLocalWrites viewCache writes).WellFormed := by
  unfold nodeWithLocalWrites
  split
  · refine FWriteTree.calculateCompleteEventChildrenAtPath_wellFormed canonical _ ?_
    cases complete : viewCache.completeServerSnap with
    | none => exact .emptyNode
    | some node => exact sound.completeServerSnap complete
  · exact completeEventCache_wellFormed canonical sound

theorem newEventChild_wellFormed {viewCache : FViewCache K} (sound : viewCache.Sound)
    {childKey : K} {childChangePath : FPath K} {newChild : FNode K}
    (found : newEventChild viewCache writes childKey childChangePath = some newChild) :
    newChild.WellFormed := by
  have oldWf := sound.event.getImmediateChild childKey
  unfold newEventChild at found
  dsimp only at found
  split at found
  · split at found
    · next update answer =>
        obtain rfl := Option.some.inj found
        exact oldWf.updateChild (FWriteTree.calculateEventCacheAfterServerOverwriteAtPath_wellFormed
          canonical sound.server answer) childChangePath
    · exact Option.some.inj found ▸ oldWf
  · exact FWriteTree.calculateCompleteChildAtPath_wellFormed canonical sound.server found

theorem generateEventCacheAfterServerEvent_evolves {viewCache : FViewCache K}
    (sound : viewCache.Sound) (changePath : FPath K) :
    Evolves numbers viewCache.cachedEventSnap.node
      (generateEventCacheAfterServerEvent numbers viewCache changePath writes) := by
  unfold generateEventCacheAfterServerEvent
  dsimp only
  split
  · exact Evolves.refl sound
  · cases changePath with
    | nil =>
        have nodeWf := nodeWithLocalWrites_wellFormed canonical sound
        exact evolves_updateEventSnap sound nodeWf
          (FIndexedFilter.updateFullNode_leads sound.event nodeWf) _
    | cons childKey childChangePath =>
        dsimp only
        split
        · next newChild found =>
            have newWf := newEventChild_wellFormed canonical sound found
            exact evolves_updateEventSnap sound
              (FIndexedFilter.updateChildIn_wellFormed sound.event newWf childKey childChangePath)
              (FIndexedFilter.updateChildIn_leads sound.event newWf childKey childChangePath) _
        · exact ⟨⟨sound.event, sound.server⟩, Leads.refl _⟩

omit canonical [StringComparator K] in
theorem newServerNode_wellFormed {serverSnap : FCacheNode K} (serverWf : serverSnap.node.WellFormed)
    {changePath : FPath K} {snap newServer : FNode K} (wf : snap.WellFormed)
    (found : newServerNode numbers serverSnap changePath snap = some newServer) :
    newServer.WellFormed := by
  unfold newServerNode at found
  split at found
  · exact Option.some.inj found ▸ wf
  · next childKey childChangePath =>
      split at found
      · cases found
      · obtain rfl := Option.some.inj found
        have childWf := serverWf.getImmediateChild childKey
        exact FIndexedFilter.updateChildIn_wellFormed serverWf
          (childWf.updateChild wf childChangePath) childKey childChangePath

theorem applyServerOverwriteTo_evolves {viewCache : FViewCache K} (sound : viewCache.Sound)
    (changePath : FPath K) {snap : FNode K} (wf : snap.WellFormed) :
    Evolves numbers viewCache.cachedEventSnap.node
      (applyServerOverwriteTo numbers viewCache changePath snap writes) := by
  unfold applyServerOverwriteTo
  dsimp only
  split
  · exact Evolves.refl sound
  · next newServer found =>
      have newSound : (viewCache.updateServerSnap newServer
          (viewCache.cachedServerSnap.isFullyInitialized || changePath.isEmpty) false).Sound :=
        ⟨sound.event, newServerNode_wellFormed sound.server wf found⟩
      exact generateEventCacheAfterServerEvent_evolves canonical newSound changePath

theorem completeChild_wellFormed {viewCache : FViewCache K} (sound : viewCache.Sound)
    {optCompleteCache : Option (FNode K)}
    (optWf : ∀ node, optCompleteCache = some node → node.WellFormed) {childKey : K}
    {node : FNode K}
    (answer : completeChild writes viewCache optCompleteCache childKey = some node) :
    node.WellFormed := by
  unfold completeChild at answer
  dsimp only at answer
  split at answer
  · exact Option.some.inj answer ▸ sound.event.getImmediateChild childKey
  · refine FWriteTree.calculateCompleteChildAtPath_wellFormed canonical ?_ answer
    cases optCompleteCache with
    | none => exact sound.server
    | some server => exact optWf server rfl

theorem newUserChild_wellFormed {viewCache : FViewCache K} (sound : viewCache.Sound)
    {optCompleteCache : Option (FNode K)}
    (optWf : ∀ node, optCompleteCache = some node → node.WellFormed) (childKey : K)
    (childChangePath : FPath K) {snap : FNode K} (wf : snap.WellFormed) :
    (newUserChild viewCache writes optCompleteCache childKey childChangePath snap).WellFormed := by
  unfold newUserChild
  split
  · exact wf
  · split
    · next childNode answer =>
        exact (completeChild_wellFormed canonical sound optWf answer).updateChild wf childChangePath
    · exact .emptyNode

theorem applyUserOverwriteTo_evolves {viewCache : FViewCache K} (sound : viewCache.Sound)
    (changePath : FPath K) {snap : FNode K} (wf : snap.WellFormed)
    {optCompleteCache : Option (FNode K)}
    (optWf : ∀ node, optCompleteCache = some node → node.WellFormed) :
    Evolves numbers viewCache.cachedEventSnap.node
      (applyUserOverwriteTo numbers viewCache changePath snap writes optCompleteCache) := by
  unfold applyUserOverwriteTo
  cases changePath with
  | nil =>
      exact evolves_updateEventSnap sound wf (FIndexedFilter.updateFullNode_leads sound.event wf) _
  | cons childKey childChangePath =>
      dsimp only
      split
      · exact Evolves.refl sound
      · have newWf := newUserChild_wellFormed canonical sound optWf childKey childChangePath wf
        exact evolves_updateEventSnap sound
          (FIndexedFilter.updateChildIn_wellFormed sound.event newWf childKey childChangePath)
          (FIndexedFilter.updateChildIn_leads sound.event newWf childKey childChangePath) _

theorem mergeChildren_evolves {viewCache : FViewCache K} (sound : viewCache.Sound) {old : FNode K}
    {children : List (K × FCompoundWrite K)} (each : ∀ child ∈ children, child.2.Canonical)
    {result : FViewCache K × List (K × FChange K)} (evolves : Evolves numbers old result) :
    Evolves numbers old (children.foldl (mergeChild numbers viewCache writes) result) := by
  induction children generalizing result with
  | nil => exact evolves
  | cons child rest ih =>
      have childWf := (each child List.mem_cons_self).applyToNode_wellFormed
        (sound.server.getImmediateChild child.1)
      have next : Evolves numbers result.1.cachedEventSnap.node
          (applyServerOverwriteTo numbers result.1 [child.1]
            (child.2.applyToNode (viewCache.cachedServerSnap.node.getImmediateChild child.1))
            writes) :=
        applyServerOverwriteTo_evolves canonical evolves.sound [child.1] childWf
      exact ih (fun later member => each later (List.mem_cons_of_mem _ member))
        ⟨next.sound, evolves.leads.append next.leads⟩

theorem applyServerMergeTo_evolves {viewCache : FViewCache K} (sound : viewCache.Sound)
    (path : FPath K) {changedChildren : FCompoundWrite K} (merge : changedChildren.Canonical) :
    Evolves numbers viewCache.cachedEventSnap.node
      (applyServerMergeTo numbers viewCache path changedChildren writes) := by
  unfold applyServerMergeTo
  dsimp only
  split
  · exact Evolves.refl sound
  · have actual := actualMerge_canonical merge path
    refine mergeChildren_evolves canonical sound (fun child member => ?_) (Evolves.refl sound)
    rcases List.mem_append.mp member with held | other
    · exact actual.childCompoundWrites (List.mem_of_mem_filter held)
    · exact actual.childCompoundWrites (List.mem_of_mem_filter other)

theorem ackUserWriteOn_evolves {viewCache : FViewCache K} (sound : viewCache.Sound)
    (ackPath : FPath K) :
    Evolves numbers viewCache.cachedEventSnap.node
      (ackUserWriteOn numbers viewCache ackPath writes) := by
  unfold ackUserWriteOn
  dsimp only
  split
  · exact Evolves.refl sound
  · split
    · exact applyServerOverwriteTo_evolves canonical sound ackPath (sound.server.getChild ackPath)
    · split
      · refine applyServerMergeTo_evolves canonical sound ackPath ?_
        have each : ∀ child ∈ viewCache.cachedServerSnap.node.enumerated, child.2.WellFormed := by
          intro child member
          rw [(FIndexedFilter.mem_enumerated sound.server member).1]
          exact sound.server.getImmediateChild child.1
        have start : (FCompoundWrite.emptyWrite : FCompoundWrite K).Canonical :=
          FCompoundWrite.canonical_emptyWrite
        generalize viewCache.cachedServerSnap.node.enumerated = children at each
        generalize FCompoundWrite.emptyWrite = collected at start
        induction children generalizing collected with
        | nil => exact start
        | cons child rest ih =>
            exact ih (fun later member => each later (List.mem_cons_of_mem _ member)) _
              (start.addWrite (each child List.mem_cons_self) [child.1])
      · exact Evolves.refl sound

theorem revertedNode_wellFormed {viewCache : FViewCache K} (sound : viewCache.Sound) :
    (revertedNode viewCache writes).WellFormed := by
  unfold revertedNode
  split
  · exact completeEventCache_wellFormed canonical sound
  · exact FWriteTree.calculateCompleteEventChildrenAtPath_wellFormed canonical _ sound.server

theorem revertedChild_wellFormed {viewCache : FViewCache K} (sound : viewCache.Sound)
    {childKey : K} {child : FNode K}
    (found : revertedChild viewCache writes childKey = some child) : child.WellFormed := by
  unfold revertedChild at found
  split at found
  · next answer =>
      obtain rfl := Option.some.inj found
      exact FWriteTree.calculateCompleteChildAtPath_wellFormed canonical sound.server answer
  · split at found
    · exact Option.some.inj found ▸ sound.event.getImmediateChild childKey
    · cases found

theorem withRevertedChild_leads (numbers : NumberEquality) {viewCache : FViewCache K}
    (sound : viewCache.Sound)
    (childKey : K) (affectedPath : FPath K) :
    (withRevertedChild numbers viewCache writes childKey affectedPath).1.WellFormed ∧
      Leads numbers viewCache.cachedEventSnap.node.getImmediateChild
        (withRevertedChild numbers viewCache writes childKey affectedPath).1.getImmediateChild
        (withRevertedChild numbers viewCache writes childKey affectedPath).2 := by
  have put : ∀ child : FNode K, child.WellFormed →
      (FIndexedFilter.updateChildIn numbers viewCache.cachedEventSnap.node childKey child
        affectedPath).1.WellFormed ∧
      Leads numbers viewCache.cachedEventSnap.node.getImmediateChild
        (FIndexedFilter.updateChildIn numbers viewCache.cachedEventSnap.node childKey child
          affectedPath).1.getImmediateChild
        (FIndexedFilter.updateChildIn numbers viewCache.cachedEventSnap.node childKey child
          affectedPath).2 := fun child childWf =>
    ⟨FIndexedFilter.updateChildIn_wellFormed sound.event childWf childKey affectedPath,
      FIndexedFilter.updateChildIn_leads sound.event childWf childKey affectedPath⟩
  unfold withRevertedChild
  dsimp only
  split
  · next child found => exact put child (revertedChild_wellFormed canonical sound found)
  · split
    · exact put .emptyNode .emptyNode
    · exact ⟨sound.event, Leads.refl _⟩

theorem revertUserWriteOn_evolves {viewCache : FViewCache K} (sound : viewCache.Sound)
    (path : FPath K) :
    Evolves numbers viewCache.cachedEventSnap.node
      (revertUserWriteOn numbers viewCache path writes) := by
  unfold revertUserWriteOn
  dsimp only
  split
  · exact Evolves.refl sound
  · cases path with
    | nil =>
        have nodeWf := revertedNode_wellFormed canonical sound
        exact evolves_updateEventSnap sound nodeWf
          (FIndexedFilter.updateFullNode_leads sound.event nodeWf) _
    | cons childKey affectedPath =>
        obtain ⟨updatedWf, leads⟩ :=
          withRevertedChild_leads canonical numbers sound childKey affectedPath
        dsimp only
        split
        · split
          · next value answer =>
              have leafWf : (FNode.leaf value : FNode K).WellFormed := .leaf value
              exact ⟨⟨leafWf, sound.server⟩,
                leads.append (FIndexedFilter.updateFullNode_leads updatedWf leafWf)⟩
          · exact evolves_updateEventSnap sound updatedWf leads _
        · exact evolves_updateEventSnap sound updatedWf leads _

theorem updateCaches_evolves {viewCache : FViewCache K} (sound : viewCache.Sound)
    {operation : FOperation K} (operationSound : operation.Sound)
    {optCompleteCache : Option (FNode K)}
    (optWf : ∀ node, optCompleteCache = some node → node.WellFormed) :
    Evolves numbers viewCache.cachedEventSnap.node
      (updateCaches numbers viewCache operation writes optCompleteCache) := by
  cases operation with
  | overwrite source path snap =>
      cases source with
      | user => exact applyUserOverwriteTo_evolves canonical sound path operationSound optWf
      | server => exact applyServerOverwriteTo_evolves canonical sound path operationSound
  | merge path children => exact applyServerMergeTo_evolves canonical sound path operationSound
  | ackUserWrite path revert =>
      cases revert with
      | true => exact revertUserWriteOn_evolves canonical sound path
      | false => exact ackUserWriteOn_evolves canonical sound path
  | listenComplete path =>
      have sameSound : (viewCache.updateServerSnap viewCache.cachedServerSnap.node
          (viewCache.cachedServerSnap.isFullyInitialized || path.isEmpty)
          viewCache.cachedServerSnap.isFiltered).Sound := ⟨sound.event, sound.server⟩
      exact generateEventCacheAfterServerEvent_evolves canonical sameSound path

end Operations

/-! ## The value event -/

omit [StringComparator K] in
theorem maybeAddValue_complete {old new : FViewCache K} {changes : ChangeMap K} {node : FNode K}
    (added : maybeAddValue numbers old new changes = some node) :
    node = new.cachedEventSnap.node := by
  unfold maybeAddValue at added
  split at added
  · exact (Option.some.inj added).symm
  · cases added

omit [StringComparator K] in
/-- A complete node without a value event is the one the listeners have. -/
theorem maybeAddValue_none {old new : FViewCache K} (oldSound : old.Sound) (newSound : new.Sound)
    {changes : ChangeMap K}
    (tracks : Tracks numbers old.cachedEventSnap.node.getImmediateChild
      new.cachedEventSnap.node.getImmediateChild changes)
    (complete : new.cachedEventSnap.isFullyInitialized = true)
    (silent : maybeAddValue numbers old new changes = none) :
    old.cachedEventSnap.isFullyInitialized = true ∧
      FNode.Same numbers old.cachedEventSnap.node new.cachedEventSnap.node := by
  have quiet : raisesValue numbers old new changes = false := by
    unfold maybeAddValue at silent
    split at silent
    · cases silent
    · next quiet => exact Bool.eq_false_of_not_eq_true quiet
  unfold raisesValue at quiet
  simp only [complete, Bool.true_and, Bool.or_eq_false_iff, Bool.not_eq_false',
    List.isEmpty_iff] at quiet
  obtain ⟨⟨rfl, oldComplete⟩, unchanged⟩ := quiet
  refine ⟨oldComplete, ?_⟩
  have below : ∀ key, FNode.Same numbers (old.cachedEventSnap.node.getImmediateChild key)
      (new.cachedEventSnap.node.getImmediateChild key) := fun key => (tracks key).same
  by_cases top : (new.cachedEventSnap.node.isLeafNode || new.cachedEventSnap.node.isEmpty) = true
  · have was : old.completeEventSnap = some old.cachedEventSnap.node := by
      simp [FViewCache.completeEventSnap, oldComplete]
    have equal : new.cachedEventSnap.node.isEqual numbers old.cachedEventSnap.node = true := by
      simpa [top, was] using unchanged
    exact ((FNode.isEqual_iff_same newSound.event oldSound.event).mp equal).symm
  · refine FNode.same_of_children ?_ below
    -- A child that is not empty is on both sides, so neither node is a leaf.
    cases newNode : new.cachedEventSnap.node with
    | leaf value => simp [newNode, FNode.isLeafNode] at top
    | children entries =>
        cases entries with
        | nil => simp [newNode, FNode.isEmpty] at top
        | cons entry rest =>
            have newWf := newSound.event
            rw [newNode] at newWf
            have listed : entry ∈ (FNode.children (entry :: rest)).enumerated :=
              List.mem_cons_self
            obtain ⟨held, full⟩ := FIndexedFilter.mem_enumerated newWf listed
            cases oldNode : old.cachedEventSnap.node with
            | leaf value =>
                have gone := (tracks entry.1).empty
                rw [newNode, oldNode, ← held, full] at gone
                cases gone
            | children others => trivial

end FViewProcessor

end PicksOnMap.Source
